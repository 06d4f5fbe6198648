import SettingsSweep.Axis.Resolve
import Mathlib.Data.List.Basic

/-!
The values of a resolved axis: those its rows come to, each once by its key.
-/

set_option autoImplicit false

namespace SettingsSweep

namespace Scalar

theorem key_notMem_of_mem_distinctFrom {seen values : List Scalar} {v : Scalar}
    (h : v ∈ distinctFrom seen values) : v.key ∉ seen := by
  induction values generalizing seen with
  | nil => simp [distinctFrom] at h
  | cons u us ih =>
    unfold distinctFrom at h
    split at h
    · exact ih h
    · next hu =>
      rcases List.mem_cons.1 h with rfl | h
      · exact hu
      · exact fun hm => ih h (List.mem_cons_of_mem _ hm)

theorem nodup_keys_distinctFrom (seen values : List Scalar) :
    ((distinctFrom seen values).map key).Nodup := by
  induction values generalizing seen with
  | nil => simp [distinctFrom]
  | cons u us ih =>
    unfold distinctFrom
    split
    · exact ih seen
    · refine List.nodup_cons.2 ⟨?_, ih _⟩
      intro hm
      obtain ⟨v, hv, he⟩ := List.mem_map.1 hm
      apply key_notMem_of_mem_distinctFrom hv
      rw [he]
      exact List.mem_cons_self

theorem distinctFrom_eq_self {seen values : List Scalar} (nodup : (values.map key).Nodup)
    (fresh : ∀ v ∈ values, v.key ∉ seen) : distinctFrom seen values = values := by
  induction values generalizing seen with
  | nil => rfl
  | cons u us ih =>
    obtain ⟨unseen, nodup⟩ := List.nodup_cons.1 nodup
    have later : ∀ v ∈ us, v.key ∉ u.key :: seen := by
      intro v hv hm
      rcases List.mem_cons.1 hm with eq | hm
      · exact unseen (eq ▸ List.mem_map_of_mem hv)
      · exact fresh v (List.mem_cons_of_mem _ hv) hm
    rw [distinctFrom, if_neg (fresh u List.mem_cons_self), ih nodup later]

theorem distinct_eq_self_iff {values : List Scalar} :
    distinct values = values ↔ (values.map key).Nodup := by
  constructor
  · intro h
    rw [← h]
    exact nodup_keys_distinctFrom [] values
  · intro nodup
    exact distinctFrom_eq_self nodup fun v _ => List.not_mem_nil

theorem distinct_eq_nil_iff {values : List Scalar} : distinct values = [] ↔ values = [] := by
  cases values with
  | nil => simp [distinct, distinctFrom]
  | cons v vs => simp [distinct, distinctFrom]

end Scalar

namespace Axis

/-- The rows of an axis as values, with repetitions. -/
def contributed (axis : Axis) (catalog : Catalog) : List Scalar :=
  (axis.contributions catalog).flatMap (·.values)

theorem resolve_eq {axis : Axis} (h : axis.hasField = true) (catalog : Catalog) :
    axis.resolve catalog =
      ⟨axis.name, axis.path, catalog.classify axis.path,
        Scalar.distinct (axis.contributed catalog),
        (axis.contributions catalog).flatMap (·.warnings)⟩ := by
  simp [resolve, h, Scalar.distinctHashed_eq, Contribution.concat, contributed]

theorem resolve_values {axis : Axis} (h : axis.hasField = true) (catalog : Catalog) :
    (axis.resolve catalog).values = Scalar.distinct (axis.contributed catalog) := by
  rw [resolve_eq h]

theorem nodup_keys_resolve (axis : Axis) (catalog : Catalog) :
    ((axis.resolve catalog).values.map Scalar.key).Nodup := by
  by_cases h : axis.hasField = true
  · rw [resolve_values h]
    exact Scalar.nodup_keys_distinctFrom [] _
  · simp [resolve, h]

theorem resolve_name (axis : Axis) (catalog : Catalog) :
    (axis.resolve catalog).name = axis.name := by
  unfold resolve
  split <;> rfl

theorem resolve_field (axis : Axis) (catalog : Catalog) :
    (axis.resolve catalog).field = axis.path := by
  unfold resolve
  split <;> rfl

theorem resolve_kind (axis : Axis) (catalog : Catalog) :
    (axis.resolve catalog).kind = catalog.classify axis.path := by
  unfold resolve
  split <;> rfl

end Axis

end SettingsSweep

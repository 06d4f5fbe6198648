import SettingsSweep.Proofs.Naming.Pieces
import Mathlib.Tactic.Ring

/-!
What filling a template depends on: only the texts of the variables it uses. Seen from one variable, the
result is a list of texts without it, joined by its own text.
-/

set_option autoImplicit false

namespace SettingsSweep.Template

theorem mem_toList_of_mem_source {template : String} {p : Piece} (hp : p ∈ pieces template)
    {c : Char} (hc : c ∈ p.source) : c ∈ template.toList := by
  rw [← (splits_pieces template).flatMap_source]
  exact List.mem_flatMap.2 ⟨p, hp, hc⟩

/-- The known variables of a template, at each place where they stand. -/
def slots (template : String) : List Variable := (pieces template).filterMap Piece.slot?

theorem mem_slots {template : String} {v : Variable} :
    v ∈ slots template ↔ ∃ p ∈ pieces template, p.slot? = some v := List.mem_filterMap

theorem fill_congr {template : String} {values others : Variable → String}
    (h : ∀ v ∈ slots template, values v = others v) :
    fill template values = fill template others := by
  rw [fill_eq, fill_eq]
  congr 1
  refine List.flatMap_congr fun p hp => Piece.fill_congr fun v hv => ?_
  exact h v (mem_slots.2 ⟨p, hp, hv⟩)

/-- The texts between the places of one variable, with `last` after the last of them. -/
def segmentsAt (hole : Variable) (values : Variable → String) (last : String) :
    List Piece → List String
  | [] => [last]
  | p :: ps =>
    if p.slot? = some hole then "" :: segmentsAt hole values last ps
    else (segmentsAt hole values last ps).modifyHead (String.ofList (p.fill values) ++ ·)

theorem length_segmentsAt (hole : Variable) (values : Variable → String) (last : String)
    (ps : List Piece) : (segmentsAt hole values last ps).length =
      (ps.filterMap Piece.slot?).count hole + 1 := by
  induction ps with
  | nil => rfl
  | cons p ps ih =>
    unfold segmentsAt
    split
    · next h => rw [List.length_cons, ih, List.filterMap_cons_some h, List.count_cons_self]
    · next h =>
      rw [List.length_modifyHead, ih]
      cases hv : p.slot? with
      | none => rw [List.filterMap_cons_none hv]
      | some v =>
        have other : v ≠ hole := fun e => h (e ▸ hv)
        rw [List.filterMap_cons_some hv, List.count_cons_of_ne other]

theorem segmentsAt_ne_nil (hole : Variable) (values : Variable → String) (last : String)
    (ps : List Piece) : segmentsAt hole values last ps ≠ [] := by
  intro h
  have length := length_segmentsAt hole values last ps
  rw [h] at length
  cases length

theorem flatMap_fill_eq_intercalate (hole : Variable) (values : Variable → String)
    (last : String) (ps : List Piece) :
    String.ofList (ps.flatMap (Piece.fill values)) ++ last =
      (values hole).intercalate (segmentsAt hole values last ps) := by
  induction ps with
  | nil => simp [segmentsAt]
  | cons p ps ih =>
    unfold segmentsAt
    rw [List.flatMap_cons, String.ofList_append, String.append_assoc, ih]
    split
    · next h =>
      rw [String.intercalate_cons_of_ne_nil (segmentsAt_ne_nil _ _ _ _), Piece.fill_of_some h,
        String.ofList_toList, String.empty_append]
    · obtain ⟨s, rest, hs⟩ := List.exists_cons_of_ne_nil (segmentsAt_ne_nil hole values last ps)
      rw [hs, List.modifyHead_cons, String.intercalate_cons_append]

theorem segmentsAt_congr {hole : Variable} {values others : Variable → String}
    (last : String) {ps : List Piece}
    (h : ∀ v ∈ ps.filterMap Piece.slot?, v ≠ hole → values v = others v) :
    segmentsAt hole values last ps = segmentsAt hole others last ps := by
  induction ps with
  | nil => rfl
  | cons p ps ih =>
    have rest := ih fun v hv => h v (by
      cases hp : p.slot? with
      | none => rwa [List.filterMap_cons_none hp]
      | some w => rw [List.filterMap_cons_some hp]; exact List.mem_cons_of_mem _ hv)
    unfold segmentsAt
    rw [rest]
    split
    · rfl
    · next hp =>
      have piece : p.fill values = p.fill others := by
        refine Piece.fill_congr fun v hv => h v ?_ fun e => hp (e ▸ hv)
        rw [List.filterMap_cons_some hv]
        exact List.mem_cons_self
      rw [piece]

theorem fill_append_eq_intercalate (hole : Variable) (template : String)
    (values : Variable → String) (last : String) :
    fill template values ++ last =
      (values hole).intercalate (segmentsAt hole values last (pieces template)) := by
  rw [fill_eq]
  exact flatMap_fill_eq_intercalate hole values last (pieces template)

theorem length_intercalate (s : String) (parts : List String) : (s.intercalate parts).length =
    (parts.map String.length).sum + (parts.length - 1) * s.length := by
  induction parts with
  | nil => simp
  | cons part parts ih =>
    cases parts with
    | nil => simp
    | cons next parts =>
      rw [String.intercalate_cons_cons, String.length_append, String.length_append, ih]
      simp only [List.map_cons, List.sum_cons, List.length_cons, Nat.add_sub_cancel]
      ring

theorem intercalate_left_inj {parts : List String} (h : 2 ≤ parts.length) {s t : String}
    (eq : s.intercalate parts = t.intercalate parts) : s = t := by
  match parts, h with
  | part :: next :: rest, _ =>
    -- The lengths first; then both separators are what follows the first part.
    have length : s.length = t.length := by
      have total := congrArg String.length eq
      rw [length_intercalate, length_intercalate] at total
      have places : 0 < (part :: next :: rest).length - 1 := by simp
      exact Nat.eq_of_mul_eq_mul_left places (by omega)
    rw [String.intercalate_cons_cons, String.intercalate_cons_cons, String.append_assoc,
      String.append_assoc] at eq
    have tails := congrArg String.toList ((String.append_right_inj part).1 eq)
    rw [String.toList_append, String.toList_append] at tails
    have same : s.toList.length = t.toList.length := by
      rw [String.length_toList, String.length_toList, length]
    exact String.toList_inj.1 (List.append_inj_left tails same)

/-- Where only one of the variables in use reads differently, the result is different. -/
theorem fill_append_ne {template : String} {values others : Variable → String} {hole : Variable}
    (used : hole ∈ slots template) (differ : values hole ≠ others hole)
    (rest : ∀ v ∈ slots template, v ≠ hole → values v = others v) (last : String) :
    fill template values ++ last ≠ fill template others ++ last := by
  rw [fill_append_eq_intercalate hole, fill_append_eq_intercalate hole,
    segmentsAt_congr last rest]
  have places : 2 ≤ (segmentsAt hole others last (pieces template)).length := by
    have := List.count_pos_iff.2 used
    rw [length_segmentsAt]
    change 0 < ((pieces template).filterMap Piece.slot?).count hole at this
    omega
  exact fun eq => differ (intercalate_left_inj places eq)

end SettingsSweep.Template

import SettingsSweep.Proofs.Axis.FiniteValues
import SettingsSweep.Proofs.Axis.Values
import SettingsSweep.Proofs.Number.Operations
import SettingsSweep.Proofs.Scalar

/-!
The values of an axis as a list: what its rows or options say, in order, without those that are alike to an earlier one.
Two values are alike if they are equal or both NaN; so the key by which repetitions are found is no more and no less than
equality, and what comes later never changes what came before.
-/

set_option autoImplicit false

namespace SettingsSweep

namespace Binary64

variable {x y : Binary64}

theorem same_self (h : x ≠ .nan) : x.same x = true := by
  cases x with
  | nan => exact absurd rfl h
  | infinite s => cases s <;> rfl
  | finite s m e canonical => exact (same_iff rfl rfl).2 rfl

theorem same_of_isZero (hx : x.isZero = true) (hy : y.isZero = true) : x.same y = true := by
  have zero {z : Binary64} (hz : z.isZero = true) : z.isFinite = true ∧ z.toRat = 0 := by
    cases z with
    | nan => cases hz
    | infinite s => cases hz
    | finite s m e canonical =>
      obtain rfl : m = 0 := by simpa [isZero] using hz
      exact ⟨rfl, by simp [toRat]⟩
  exact (same_iff (zero hx).1 (zero hy).1).2 ((zero hx).2.trans (zero hy).2.symm)

end Binary64

namespace Scalar

variable {v w : Scalar} {values more seen : List Scalar}

def alike (v w : Scalar) : Bool := v.same w || (v = .number .nan && w = .number .nan)

theorem key_number_cases (x : Binary64) :
    x.isZero = true ∧ (number x).key = .number (.zero false) ∨ x.isZero = false ∧ (number x).key = .number x := by
  cases zero : x.isZero with
  | true => exact .inl ⟨rfl, by simp [key, zero]⟩
  | false => exact .inr ⟨rfl, by simp [key, zero]⟩

theorem alike_number_of_key_eq {x y : Binary64} (h : (number x).key = (number y).key) :
    x.same y = true ∨ x = .nan ∧ y = .nan := by
  have zero : (Binary64.zero false).isZero = true := rfl
  rcases key_number_cases x with ⟨hx, kx⟩ | ⟨hx, kx⟩
  · rcases key_number_cases y with ⟨hy, ky⟩ | ⟨hy, ky⟩
    · exact .inl (Binary64.same_of_isZero hx hy)
    · rw [kx, ky] at h
      rw [← number.inj h, zero] at hy
      cases hy
  · rcases key_number_cases y with ⟨hy, ky⟩ | ⟨hy, ky⟩
    · rw [kx, ky] at h
      rw [number.inj h, zero] at hx
      cases hx
    · rw [kx, ky] at h
      obtain rfl := number.inj h
      by_cases nan : x = .nan
      · exact .inr ⟨nan, nan⟩
      · exact .inl (Binary64.same_self nan)

/-- The key decides equality, but for NaN, which has a key though it equals nothing. -/
theorem alike_iff_key_eq : v.alike w = true ↔ v.key = w.key := by
  rw [alike, Bool.or_eq_true, Bool.and_eq_true, decide_eq_true_eq, decide_eq_true_eq]
  constructor
  · rintro (same | ⟨rfl, rfl⟩)
    · exact key_eq_of_same same
    · rfl
  · intro keys
    -- A number has a number for its key, so both are of one kind.
    have apart (x : Binary64) {u : Scalar} (h : (number x).key = u) : ∃ y, u = number y := by
      rcases key_number_cases x with ⟨-, k⟩ | ⟨-, k⟩ <;> exact ⟨_, h.symm.trans k⟩
    cases v with
    | bool a =>
      cases w with
      | number y => obtain ⟨z, same⟩ := apart y keys.symm; cases same
      | bool b => exact .inl (by simpa [same, key] using keys)
      | text t => cases keys
    | text s =>
      cases w with
      | number y => obtain ⟨z, same⟩ := apart y keys.symm; cases same
      | bool b => cases keys
      | text t => exact .inl (by simpa [same, key] using keys)
    | number x =>
      cases w with
      | bool b => obtain ⟨z, same⟩ := apart x keys; cases same
      | text t => obtain ⟨z, same⟩ := apart x keys; cases same
      | number y =>
        rcases alike_number_of_key_eq keys with same | ⟨rfl, rfl⟩
        · exact .inl same
        · exact .inr ⟨rfl, rfl⟩

def firsts (values : List Scalar) : List Scalar :=
  (values.zipIdx.filter fun p => (values.take p.2).all fun earlier => !earlier.alike p.1).map Prod.fst

theorem firsts_concat (values : List Scalar) (v : Scalar) :
    firsts (values ++ [v]) = firsts values ++ if values.any (·.alike v) then [] else [v] := by
  have before : values.zipIdx.filter (fun p => ((values ++ [v]).take p.2).all fun earlier => !earlier.alike p.1) =
      values.zipIdx.filter fun p => (values.take p.2).all fun earlier => !earlier.alike p.1 := by
    refine List.filter_congr fun p hp => ?_
    obtain ⟨-, lt, -⟩ := List.mem_zipIdx hp
    rw [List.take_append_of_le_length (by omega)]
  unfold firsts
  rw [List.zipIdx_append, List.filter_append, List.map_append, before, List.zipIdx_singleton, Nat.zero_add]
  refine congrArg _ ?_
  have fresh : ((values ++ [v]).take values.length).all (fun earlier => !earlier.alike v) =
      !values.any (·.alike v) := by
    rw [List.take_left, List.not_any_eq_all_not]
  rw [List.filter_cons, fresh]
  cases values.any (·.alike v) <;> rfl

theorem distinctFrom_congr {seen' : List Scalar} (h : ∀ k, k ∈ seen ↔ k ∈ seen') (values : List Scalar) :
    distinctFrom seen values = distinctFrom seen' values := by
  induction values generalizing seen seen' with
  | nil => rfl
  | cons v vs ih =>
    have later : ∀ k, k ∈ v.key :: seen ↔ k ∈ v.key :: seen' := by
      intro k
      rw [List.mem_cons, List.mem_cons, h k]
    rw [distinctFrom, distinctFrom, ih h, ih later]
    simp only [h]

theorem distinctFrom_append (seen values more : List Scalar) :
    distinctFrom seen (values ++ more) = distinctFrom seen values ++ distinctFrom (values.map key ++ seen) more := by
  induction values generalizing seen with
  | nil => rfl
  | cons v vs ih =>
    rw [List.cons_append, distinctFrom, distinctFrom]
    split
    · next known =>
      rw [ih seen]
      refine congrArg _ (distinctFrom_congr (fun k => ?_) more)
      rw [List.map_cons, List.cons_append, List.mem_cons, List.mem_append]
      exact ⟨.inr, fun h => h.elim (fun eq => .inr (eq ▸ known)) id⟩
    · rw [ih (v.key :: seen), List.cons_append]
      refine congrArg (fun vs => v :: (_ ++ vs)) (distinctFrom_congr (fun k => ?_) more)
      simp only [List.map_cons, List.cons_append, List.mem_cons, List.mem_append]
      tauto

theorem distinct_prefix (values more : List Scalar) : distinct values <+: distinct (values ++ more) := by
  rw [distinct, distinct, distinctFrom_append]
  exact List.prefix_append _ _

theorem distinct_distinct (values : List Scalar) : distinct (distinct values) = distinct values :=
  distinct_eq_self_iff.2 (nodup_keys_distinctFrom [] values)

theorem distinct_eq_firsts (values : List Scalar) : distinct values = firsts values := by
  induction values using List.reverseRecOn with
  | nil => rfl
  | append_singleton values v ih =>
    rw [distinct, distinctFrom_append, firsts_concat, ← ih, ← distinct]
    refine congrArg (distinct values ++ ·) ?_
    have known : v.key ∈ values.map key ++ [] ↔ values.any (·.alike v) = true := by
      simp [List.any_eq_true, alike_iff_key_eq]
    simp only [distinctFrom, known]

theorem pairwise_distinct (values : List Scalar) : (distinct values).Pairwise fun v w => v.alike w = false := by
  refine (List.pairwise_map.1 (nodup_keys_distinctFrom [] values)).imp fun {v w} ne => ?_
  rw [Bool.eq_false_iff, Ne, alike_iff_key_eq]
  exact ne

theorem mem_seen_or_exists_kept (h : v ∈ values) :
    v.key ∈ seen ∨ ∃ kept ∈ distinctFrom seen values, kept.key = v.key := by
  induction values generalizing seen with
  | nil => cases h
  | cons u us ih =>
    rw [distinctFrom]
    rcases List.mem_cons.1 h with rfl | h
    · by_cases known : v.key ∈ seen
      · exact .inl known
      · rw [if_neg known]
        exact .inr ⟨v, List.mem_cons_self, rfl⟩
    · split
      · exact ih h
      · have onward : v.key ∈ u.key :: seen ∨ ∃ kept ∈ distinctFrom (u.key :: seen) us, kept.key = v.key := ih h
        rcases onward with known | ⟨kept, later, same⟩
        · rcases List.mem_cons.1 known with same | known
          · exact .inr ⟨u, List.mem_cons_self, same.symm⟩
          · exact .inl known
        · exact .inr ⟨kept, List.mem_cons_of_mem _ later, same⟩

theorem exists_kept (h : v ∈ values) : ∃ kept ∈ distinct values, kept.alike v = true := by
  obtain ⟨kept, mem, same⟩ := (mem_seen_or_exists_kept h).resolve_left List.not_mem_nil
  exact ⟨kept, mem, alike_iff_key_eq.2 same⟩

end Scalar

namespace Axis

variable {axis : Axis} {catalog : Catalog}

/-- What an axis on a field of this kind says, in order and with repetitions: options are text, and so is a row of frames;
    every other row is expanded. -/
def listed (axis : Axis) : FieldKind → List Scalar
  | .choice => ((axis.choices.map Text.trim).filter (· ≠ "")).map .text
  | .prompts => axis.expressions.flatMap fun row =>
      if Text.opensWith ['\x7b'] row.toList then [.text (Text.trim row)] else (Row.ofText row).values
  | _ => axis.expressions.flatMap fun row => (Row.ofText row).values

def extend (axis : Axis) (rows options : List String) : Axis :=
  { axis with expressions := axis.expressions ++ rows, choices := axis.choices ++ options }

@[simp] theorem path_extend (axis : Axis) (rows options : List String) : (axis.extend rows options).path = axis.path := rfl

@[simp] theorem hasField_extend (axis : Axis) (rows options : List String) :
    (axis.extend rows options).hasField = axis.hasField := rfl

theorem flatMap_ofChoice (name : AxisName) (field : String) (known options : List String) :
    (options.map (Contribution.ofChoice name field known)).flatMap (·.values) =
      ((options.map Text.trim).filter (· ≠ "")).map .text := by
  induction options with
  | nil => rfl
  | cons option options ih =>
    rw [List.map_cons, List.flatMap_cons, ih, List.map_cons, List.filter_cons]
    unfold Contribution.ofChoice
    dsimp only
    by_cases blank : Text.trim option = "" <;> simp [blank]

theorem contributed_eq_listed (axis : Axis) (catalog : Catalog) :
    axis.contributed catalog = axis.listed (catalog.classify axis.path) := by
  unfold contributed contributions
  generalize catalog.classify axis.path = kind
  cases kind with
  | choice => exact flatMap_ofChoice _ _ _ _
  | prompts =>
    dsimp only
    rw [List.flatMap_map]
    refine List.flatMap_congr fun row _ => ?_
    unfold Contribution.ofPromptRow
    split <;> rfl
  | _ => exact List.flatMap_map ..

theorem exists_listed_extend (axis : Axis) (rows options : List String) (kind : FieldKind) :
    ∃ more, (axis.extend rows options).listed kind = axis.listed kind ++ more := by
  cases kind with
  | choice =>
    refine ⟨((options.map Text.trim).filter (· ≠ "")).map .text, ?_⟩
    simp [listed, extend]
  | _ => exact ⟨_, List.flatMap_append⟩

theorem resolve_values_eq (axis : Axis) (catalog : Catalog) :
    (axis.resolve catalog).values =
      if axis.hasField then Scalar.distinct (axis.listed (catalog.classify axis.path)) else [] := by
  split
  · next field => rw [resolve_values field, contributed_eq_listed]
  · next blank => rw [resolve, if_neg blank]

theorem resolve_values_of_numeric (field : axis.hasField = true) (numeric : catalog.classify axis.path = .numeric) :
    (axis.resolve catalog).values = Scalar.distinct (axis.expressions.flatMap fun row => (Row.ofText row).values) := by
  rw [resolve_values_eq, if_pos field, numeric]
  rfl

theorem resolve_values_prefix (axis : Axis) (catalog : Catalog) (rows options : List String) :
    (axis.resolve catalog).values <+: ((axis.extend rows options).resolve catalog).values := by
  obtain ⟨more, longer⟩ := axis.exists_listed_extend rows options (catalog.classify axis.path)
  rw [resolve_values_eq, resolve_values_eq, path_extend, hasField_extend, longer]
  split
  · exact Scalar.distinct_prefix _ _
  · exact List.prefix_rfl

/-- The values of an axis. With a field they are what the axis says, in order, at the places before which nothing is
    alike; with none there are no values. No two are alike, everything said is alike to a value kept, picking first
    occurrences again changes nothing, and more rows or options at the end only add values at the end. -/
theorem resolve_keeps_firsts (axis : Axis) (catalog : Catalog) :
    (axis.resolve catalog).values =
        (if axis.hasField then Scalar.firsts (axis.listed (catalog.classify axis.path)) else []) ∧
      ((axis.resolve catalog).values.Pairwise fun v w => v.alike w = false) ∧
      (axis.hasField = true → ∀ v ∈ axis.listed (catalog.classify axis.path),
        ∃ kept ∈ (axis.resolve catalog).values, kept.alike v = true) ∧
      (∀ rows options, (axis.resolve catalog).values <+: ((axis.extend rows options).resolve catalog).values) ∧
      (∀ values, Scalar.distinctHashed (Scalar.distinctHashed values) = Scalar.distinctHashed values) ∧
      (∀ {x y : Binary64}, x.isZero = true → y.isZero = true → (Scalar.number x).alike (.number y) = true) ∧
      ∀ (x : Binary64) (s : String), (Scalar.number x).alike (.text s) = false := by
  refine ⟨?_, ?_, fun field v hv => ?_, axis.resolve_values_prefix catalog, fun values => ?_, fun hx hy => ?_,
    fun x s => by simp [Scalar.alike, Scalar.same]⟩
  · rw [resolve_values_eq, Scalar.distinct_eq_firsts]
  · rw [resolve_values_eq]
    split
    · exact Scalar.pairwise_distinct _
    · exact .nil
  · rw [resolve_values_eq, if_pos field]
    exact Scalar.exists_kept hv
  · simp only [Scalar.distinctHashed_eq, Scalar.distinct_distinct]
  · rw [Scalar.alike, Scalar.same, Binary64.same_of_isZero hx hy]
    rfl

theorem resolve_keeps_firsts_seed :
    (({ name := .x, field := "seed", expressions := ["1-3", "2, one, -0, 0"] } : Axis).resolve {}).values =
        [.number (.ofInt 1), .number (.ofInt 2), .number (.ofInt 3), .text "one", .number (.zero true)] ∧
      ∃ kept ∈ (({ name := .x, field := "seed", expressions := ["1-3", "2, one, -0, 0"] } : Axis).resolve {}).values,
        kept.alike (.number (.zero false)) = true := by
  obtain ⟨values, -, kept, -⟩ := resolve_keeps_firsts
    { name := .x, field := "seed", expressions := ["1-3", "2, one, -0, 0"] } {}
  refine ⟨?_, kept (by decide) (.number (.zero false)) (by decide)⟩
  rw [values]
  decide +kernel

/-- Without a field no row counts; and of NaN, though it equals nothing, one is taken away. -/
theorem rows_without_field_and_second_nan :
    ((({ name := .x, expressions := ["1-5"] } : Axis).resolve {}).values = [] ∧
        Scalar.firsts (({ name := .x, expressions := ["1-5"] } : Axis).listed .numeric) =
          [1, 2, 3, 4, 5].map fun k => .number (.ofInt k)) ∧
      (({ name := .x, field := "seed", expressions := [Row.infiniteStep, Row.infiniteStep] } : Axis).resolve {}).values =
          [.number .nan] ∧
        ({ name := .x, field := "seed", expressions := [Row.infiniteStep, Row.infiniteStep] } : Axis).listed .numeric =
          [.number .nan, .number .nan] ∧
        (Scalar.number .nan).same (.number .nan) = false := by
  have rows : [Row.infiniteStep, Row.infiniteStep].flatMap (fun row => (Row.ofText row).values) =
      [.number .nan, .number .nan] := by simp [Row.ofText_infiniteStep]
  have once : Scalar.distinct [.number .nan, .number .nan] = [.number .nan] := by decide
  refine ⟨by decide, ?_, rows, rfl⟩
  exact (resolve_values_of_numeric (by decide) (by decide)).trans ((congrArg Scalar.distinct rows).trans once)

end Axis

end SettingsSweep

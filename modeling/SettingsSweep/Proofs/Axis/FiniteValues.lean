import SettingsSweep.Proofs.Axis.IntegerRange
import SettingsSweep.Proofs.Axis.RangeNumbers
import SettingsSweep.Proofs.Axis.SteppedEnd
import SettingsSweep.Proofs.Number.Overflow
import SettingsSweep.Proofs.Scalar

/-!
Which values of a row are finite, so that they are written as JSON numbers and read back. Only a range with a step or a
count can overflow, and since its numbers go one way, the first and the last one decide.
-/

set_option autoImplicit false

namespace SettingsSweep

open Binary64

namespace Scalar

/-- Just the finite numbers are written as JSON numbers that read back as the same value. -/
theorem exists_read_back_iff (x : Binary64) :
    (∃ y, ofJson? (number x).toJson = some (.number y) ∧ y.same x = true) ↔ x.isFinite = true := by
  constructor
  · rintro ⟨y, read, -⟩
    by_contra infinite
    rw [toJson, Json.ofNumber_of_not_isFinite (Bool.eq_false_iff.2 infinite)] at read
    cases read
  · intro finite
    have self : x.same x = true := (same_iff finite finite).2 rfl
    rcases Json.ofNumber_cases x with ⟨n, whole, written⟩ | written | ⟨infinite, -⟩
    · have value := toRat_of_toInt? whole
      have near := roundsTo_self finite
      rw [value] at near
      have finite' := (roundsTo_ofInt n).isFinite_iff.2 (near.isFinite_iff.1 finite)
      refine ⟨.ofInt n, by rw [toJson, written]; rfl, (same_iff finite' finite).2 ?_⟩
      rw [(roundsTo_ofInt n).toRat finite', near.toRat finite]
    · exact ⟨x, by rw [toJson, written]; rfl, self⟩
    · rw [finite] at infinite
      cases infinite

theorem isFinite_classify (token : String) : (classify token).isFinite = true := by
  unfold classify
  dsimp only
  split
  · rfl
  · split
    · rfl
    · split
      · next x read => exact (Option.filter_eq_some_iff.1 read).2
      · rfl

end Scalar

namespace Expansion

variable {x start stop step : Binary64} {i n : Nat} {values : List Scalar}

/-- The product with `10^10` overflows, and nothing after it. -/
theorem isFinite_tenPlaces_iff :
    (tenPlaces x).isFinite = true ↔ x.isFinite = true ∧ |x.toRat| * 10 ^ 10 < limit := by
  have ten := isInt_tenBillion.finite
  constructor
  · intro shown
    have finite : x.isFinite = true := by
      cases x with
      | finite s m e canonical => rfl
      | infinite s => cases s <;> exact absurd shown (by decide +kernel)
      | nan => exact absurd shown (by decide +kernel)
    refine ⟨finite, ?_⟩
    have product := roundsTo_mul finite ten
    rw [toRat_tenBillion] at product
    rw [← abs_scaled, ← product.isFinite_iff]
    rw [tenPlaces_eq_plainZero] at shown
    generalize x * tenBillion = y at shown
    cases y with
    | finite s m e canonical => rfl
    | infinite s => cases s <;> exact absurd shown (by decide +kernel)
    | nan => exact absurd shown (by decide +kernel)
  · rintro ⟨finite, small⟩
    have product := roundsTo_mul finite ten
    rw [toRat_tenBillion] at product
    rw [← abs_scaled, ← product.isFinite_iff] at small
    have whole := isFinite_round small
    have back := roundsTo_div whole ten (by rw [toRat_tenBillion]; norm_num)
    rw [toRat_tenBillion] at back
    rw [tenPlaces_eq_plainZero]
    refine (toRat_plainZero (back.isFinite_iff.2 ?_)).1
    rw [abs_scaled_back]
    exact lt_of_le_of_lt (div_le_self (abs_nonneg _) (by norm_num)) (abs_toRat_lt whole)

theorem isFinite_of_numberAt (h : (numberAt start step i).isFinite = true) (hi : i < 2 ^ 53) :
    start.isFinite = true ∧ step.isFinite = true := by
  have sum := (isFinite_tenPlaces_iff.1 h).1
  exact ⟨isFinite_of_add sum, isFinite_of_mul_right (isInt_ofNat hi).finite (isFinite_of_add_right sum)⟩

theorem isFinite_numberAt (hn : n < 2 ^ 53) (first : (numberAt start step 0).isFinite = true)
    (last : (numberAt start step n).isFinite = true) (le : i ≤ n) : (numberAt start step i).isFinite = true := by
  obtain ⟨fstart, fstep⟩ := isFinite_of_numberAt first (by decide)
  have hi : i < 2 ^ 53 := by omega
  have zero_le : ((0 : Nat) : ℚ) ≤ i := by exact_mod_cast Nat.zero_le i
  have le' : (i : ℚ) ≤ n := by exact_mod_cast le
  rcases le_total 0 step.toRat with up | down
  · exact isFinite_of_le_of_le first last
      (numberAt_le fstart fstep (by decide) hi (mul_le_mul_of_nonneg_right zero_le up))
      (numberAt_le fstart fstep hi hn (mul_le_mul_of_nonneg_right le' up))
  · exact isFinite_of_le_of_le last first
      (numberAt_le fstart fstep hn hi (mul_le_mul_of_nonpos_right le' down))
      (numberAt_le fstart fstep hi (by decide) (mul_le_mul_of_nonpos_right zero_le down))

/-- All values are finite if the first and the last are. -/
def EndsDecide (values : List Scalar) : Prop :=
  (∀ v, v ∈ values.head? ∨ v ∈ values.getLast? → v.isFinite = true) → ∀ v ∈ values, v.isFinite = true

theorem EndsDecide.of_all (h : ∀ v ∈ values, v.isFinite = true) : EndsDecide values := fun _ => h

theorem EndsDecide.single (v : Scalar) : EndsDecide [v] := by
  intro ends w hw
  obtain rfl := List.mem_singleton.1 hw
  exact ends w (.inl rfl)

theorem progression_succ (start step : Binary64) (n : Nat) :
    progression start step (n + 1) = (List.range (n + 1)).map fun i => .number (numberAt start step i) := rfl

theorem endsDecide_progression (hn : n < 2 ^ 53) : EndsDecide (progression start step (n + 1)) := by
  intro ends v hv
  rw [progression_succ] at ends hv
  have first := ends (.number (numberAt start step 0)) (.inl (by simp [List.range_succ_eq_map]))
  have last := ends (.number (numberAt start step n)) (.inr (by simp [List.range_succ]))
  obtain ⟨i, hi, rfl⟩ := List.mem_map.1 hv
  exact isFinite_numberAt hn first last (Nat.lt_succ_iff.1 (List.mem_range.1 hi))

theorem truncToNat_lt (few : (ofNat maxValues).le x = false) : x.truncToNat < 100000 := by
  cases x with
  | infinite s => exact Nat.succ_pos _
  | nan => exact Nat.succ_pos _
  | finite s m e canonical =>
    cases s with
    | true => exact Nat.succ_pos _
    | false =>
      obtain ⟨whole, rest, one, eq, -, value⟩ := wholePart_spec m e
      have limit := isInt_ofNat (n := maxValues) (by decide)
      have part : (0 : ℚ) ≤ rest / one := by positivity
      rw [truncToNat, eq]
      by_contra large
      have large' : ((100000 : Nat) : ℚ) ≤ whole := by exact_mod_cast not_lt.1 large
      rw [(le_iff limit.finite rfl).2] at few
      · cases few
      · rw [limit.toRat, toRat, if_neg Bool.false_ne_true, one_mul, value, Int.cast_natCast]
        exact large'.trans (le_add_of_nonneg_right part)

theorem stepped_cases (start stop step : Binary64) :
    (stepped start stop step).values = [] ∨ (stepped start stop step).values = [point start] ∨
      (stepped start stop step).problem = none ∧
        ∃ n < 100000, (stepped start stop step).values = progression start step (n + 1) := by
  unfold stepped
  split
  · exact .inr (.inl rfl)
  · split
    · exact .inr (.inl rfl)
    · split
      · exact .inl rfl
      · dsimp only
        split
        · exact .inl rfl
        · next few =>
          rw [Bool.or_eq_true, not_or, Bool.not_eq_true, Bool.not_eq_true] at few
          exact .inr (.inr ⟨rfl, _, truncToNat_lt few.2, rfl⟩)

theorem counted_cases (start stop : Binary64) (count : Nat) :
    (counted start stop count).values = [] ∨ (counted start stop count).values = [point start] ∨
      ∃ n, 0 < n ∧ n < 100000 ∧
        (counted start stop count).values = progression start ((stop - start) / ofNat n) (n + 1) := by
  unfold counted
  split
  · exact .inl rfl
  · next some =>
    split
    · exact .inr (.inl rfl)
    · next more =>
      split
      · exact .inl rfl
      · next few =>
        have le : count ≤ 100000 := not_lt.1 few
        refine .inr (.inr ⟨count - 1, by omega, by omega, ?_⟩)
        rw [Nat.sub_add_cancel (Nat.pos_of_ne_zero some)]

theorem isFinite_integers {a b : Int} (least : -2 ^ 63 ≤ a) (most : a < 2 ^ 63) :
    ∀ v ∈ (integers a b).values, v.isFinite = true := by
  unfold integers
  split
  · exact fun v hv => by cases hv
  · split
    · exact fun v hv => by cases hv
    · next few =>
      intro v hv
      obtain ⟨i, hi, rfl⟩ := List.mem_map.1 hv
      have := List.mem_range.1 hi
      have short : b - a < 100000 := not_le.1 few
      exact isFinite_ofInt (by omega)

theorem endsDecide_ofForm (form : RangeForm) : EndsDecide (ofForm form).values := by
  have none : EndsDecide [] := .of_all fun v hv => by cases hv
  cases form with
  | badStep => exact none
  | decimals => exact none
  | stepped start stop down step =>
    unfold ofForm
    rcases stepped_cases start.value stop.value (if down then -step.value else step.value) with
      eq | eq | ⟨-, n, lt, eq⟩
    · exact eq ▸ none
    · exact eq ▸ .single _
    · exact eq ▸ endsDecide_progression (by omega)
  | counted start stop count =>
    unfold ofForm
    dsimp only
    split
    · next n _ =>
      rcases counted_cases start.value stop.value n with eq | eq | ⟨k, -, lt, eq⟩
      · exact eq ▸ none
      · exact eq ▸ .single _
      · exact eq ▸ endsDecide_progression (by omega)
    · exact none
  | integers start stop =>
    unfold ofForm
    dsimp only
    split
    · next a b ha hb =>
      obtain ⟨least, most⟩ := int64?_bounds ha
      exact .of_all (isFinite_integers least most)
    · exact none

theorem isFinite_point (fstart : start.isFinite = true) (small : |start.toRat| ≤ 10 ^ 6 * moderate) :
    ∀ v ∈ [point start], v.isFinite = true := by
  intro v hv
  obtain rfl := List.mem_singleton.1 hv
  exact (tenPlaces_near fstart small).1

theorem isFinite_progression (fstart : start.isFinite = true) (fstep : step.isFinite = true) (hn : n < 2 ^ 53)
    (roomy : |start.toRat| + |n * step.toRat| ≤ 10 * moderate) :
    ∀ v ∈ progression start step (n + 1), v.isFinite = true := by
  have atStart : |start.toRat| + |(0 : Nat) * step.toRat| ≤ 10 * moderate := by
    rw [Nat.cast_zero, zero_mul, abs_zero, add_zero]
    exact (le_add_of_nonneg_right (abs_nonneg _)).trans roomy
  have first := (numberAt_near fstart fstep (by decide) atStart).1
  have last := (numberAt_near fstart fstep hn roomy).1
  intro v hv
  rw [progression_succ] at hv
  obtain ⟨i, hi, rfl⟩ := List.mem_map.1 hv
  exact isFinite_numberAt hn first last (Nat.lt_succ_iff.1 (List.mem_range.1 hi))

theorem isFinite_stepped (fstart : start.isFinite = true) (fstop : stop.isFinite = true)
    (fstep : step.isFinite = true) (small : |start.toRat| + |stop.toRat| + |step.toRat| ≤ moderate) :
    ∀ v ∈ (stepped start stop step).values, v.isFinite = true := by
  have one := one_le_moderate
  have stop_nonneg := abs_nonneg stop.toRat
  have step_nonneg := abs_nonneg step.toRat
  have single := isFinite_point fstart (by linarith)
  rcases stepped_cases start stop step with eq | eq | ⟨accepted, -⟩
  · exact eq ▸ fun v hv => by cases hv
  · exact eq ▸ single
  · obtain ⟨visible, ⟨-, eq⟩ | ⟨forward, fsteps, few, eq⟩⟩ := stepped_accepted accepted
    · exact eq ▸ single
    · have reaches := reaches_floor fstart fstop fstep visible forward fsteps few
      have inRange := reaches.few
      rw [eq]
      exact isFinite_progression fstart fstep (by omega) (reaches.roomy small)

theorem isFinite_counted (fstart : start.isFinite = true) (fstop : stop.isFinite = true)
    (small : |start.toRat| + |stop.toRat| ≤ moderate) (count : Nat) :
    ∀ v ∈ (counted start stop count).values, v.isFinite = true := by
  have one := one_le_moderate
  have start_nonneg := abs_nonneg start.toRat
  have stop_nonneg := abs_nonneg stop.toRat
  rcases counted_cases start stop count with eq | eq | ⟨n, pos, few, eq⟩
  · exact eq ▸ fun v hv => by cases hv
  · exact eq ▸ isFinite_point fstart (by linarith)
  · have width_le := abs_sub stop.toRat start.toRat
    obtain ⟨fwidth, atWidth⟩ := (roundsTo_sub fstop fstart).near (by linarith)
    have moved := abs_le_add atWidth
    have parts := isInt_ofNat (n := n) (by omega)
    have npos : (0 : ℚ) < n := by exact_mod_cast pos
    have few' : (n : ℚ) ≤ 10 ^ 5 := by exact_mod_cast few.le
    have one_le : (1 : ℚ) ≤ n := by exact_mod_cast pos
    have nonzero : (ofNat n).toRat ≠ 0 := by
      rw [parts.toRat, Int.cast_natCast]
      exact npos.ne'
    have quotient := roundsTo_div fwidth parts.finite nonzero
    rw [parts.toRat, Int.cast_natCast] at quotient
    have part : |(stop - start).toRat / n| = |(stop - start).toRat| / n := by rw [abs_div, Nat.abs_cast]
    have share : |(stop - start).toRat| / n ≤ |(stop - start).toRat| := div_le_self (abs_nonneg _) one_le
    obtain ⟨fstep, atStep⟩ := quotient.near (by rw [part]; linarith)
    have step_le := abs_le_add atStep
    rw [part] at step_le
    rw [eq]
    refine isFinite_progression fstart fstep (by omega) ?_
    rw [abs_mul, Nat.abs_cast]
    have walked := mul_le_mul_of_nonneg_left step_le npos.le
    have cancel : (n : ℚ) * (|(stop - start).toRat| / n) = |(stop - start).toRat| := mul_div_cancel₀ _ npos.ne'
    linarith

theorem six_bounds_le_moderate : 6 * 10 ^ 250 ≤ moderate := by
  have power : 6 * 10 ^ 250 ≤ 2 ^ 900 := by decide +kernel
  rw [moderate, zpow_ofNat]
  exact_mod_cast power

theorem signed_value_le {n : Numeral} (signed : n.Signed) (small : |n.written| ≤ 10 ^ 250) :
    n.value.isFinite = true ∧ |n.value.toRat| ≤ 2 * 10 ^ 250 := by
  by_cases ascii : n.Ascii
  · have most := six_bounds_le_moderate
    obtain ⟨finite, near⟩ := (signed.value_of_ascii ascii).2.near (by linarith)
    have := abs_le_add near
    exact ⟨finite, by linarith⟩
  · rw [signed.value_of_not_ascii ascii]
    exact ⟨rfl, by norm_num [Binary64.zero, toRat]⟩

theorem isFinite_ofForm {form : RangeForm} (signed : ∀ n ∈ form.numbers, Numeral.Signed n)
    (small : ∀ n ∈ form.numbers, |n.written| ≤ 10 ^ 250) : ∀ v ∈ (ofForm form).values, v.isFinite = true := by
  have read : ∀ n ∈ form.numbers, n.value.isFinite = true ∧ |n.value.toRat| ≤ 2 * 10 ^ 250 :=
    fun n hn => signed_value_le (signed n hn) (small n hn)
  have most := six_bounds_le_moderate
  cases form with
  | stepped start stop down step =>
    obtain ⟨fstart, hstart⟩ := read start (by simp [RangeForm.numbers])
    obtain ⟨fstop, hstop⟩ := read stop (by simp [RangeForm.numbers])
    obtain ⟨fstep, hstep⟩ := read step (by simp [RangeForm.numbers])
    unfold ofForm
    dsimp only
    split
    · have opposite : (-step.value).toRat = -step.value.toRat := toRat_neg _
      refine isFinite_stepped fstart fstop (isFinite_neg fstep) ?_
      rw [opposite, abs_neg]
      linarith
    · exact isFinite_stepped fstart fstop fstep (by linarith)
  | counted start stop count =>
    obtain ⟨fstart, hstart⟩ := read start (by simp [RangeForm.numbers])
    obtain ⟨fstop, hstop⟩ := read stop (by simp [RangeForm.numbers])
    unfold ofForm
    dsimp only
    split
    · exact isFinite_counted fstart fstop (by linarith) _
    · exact fun v hv => by cases hv
  | badStep => exact fun v hv => by cases hv
  | decimals => exact fun v hv => by cases hv
  | integers start stop =>
    unfold ofForm
    dsimp only
    split
    · next a b ha hb =>
      obtain ⟨least, most⟩ := int64?_bounds ha
      exact isFinite_integers least most
    · exact fun v hv => by cases hv

end Expansion

namespace Row

theorem isFinite_of_no_form {text : String} (other : RangeForm.ofText? (Text.trimChars text.toList) = none) :
    ∀ v ∈ (ofText text).values, v.isFinite = true := by
  unfold ofText
  simp only [other]
  split
  · exact fun v hv => by cases hv
  · split
    · intro v hv
      obtain ⟨token, -, rfl⟩ := List.mem_map.1 hv
      exact Scalar.isFinite_classify token
    · rw [List.forall_mem_singleton]
      exact Scalar.isFinite_classify _

/-- All values of a row are finite if and only if the first and the last are, and they are unless the row is a range with
    a step or a count that has a number of more than 250 digits before the point. A number is written as a JSON number
    and read back if and only if it is finite, and else written as null. -/
theorem values_finite_iff (text : String) :
    ((∀ v ∈ (ofText text).values, v.isFinite = true) ↔
        ∀ v, v ∈ (ofText text).values.head? ∨ v ∈ (ofText text).values.getLast? → v.isFinite = true) ∧
      ((∀ form, RangeForm.ofText? (Text.trimChars text.toList) = some form →
          ∀ n ∈ form.numbers, |n.written| ≤ 10 ^ 250) →
        ∀ v ∈ (ofText text).values, v.isFinite = true) ∧
      ∀ x : Binary64, .number x ∈ (ofText text).values →
        (x.isFinite = true ↔
          ∃ y : Binary64, Scalar.ofJson? (Scalar.number x).toJson = some (.number y) ∧ y.same x = true) ∧
        (x.isFinite = false → (Scalar.number x).toJson = .null) := by
  refine ⟨⟨fun all v hv => all v (hv.elim List.mem_of_mem_head? List.mem_of_mem_getLast?), ?_⟩, fun small => ?_,
    fun x _ => ⟨(Scalar.exists_read_back_iff x).symm, Json.ofNumber_of_not_isFinite⟩⟩
  · cases read : RangeForm.ofText? (Text.trimChars text.toList) with
    | none => exact fun _ => isFinite_of_no_form read
    | some form =>
      rw [ofText_of_form read]
      exact Expansion.endsDecide_ofForm form
  · cases read : RangeForm.ofText? (Text.trimChars text.toList) with
    | none => exact isFinite_of_no_form read
    | some form =>
      rw [ofText_of_form read]
      exact Expansion.isFinite_ofForm (RangeForm.signed_of_mem_numbers read) (small form read)

theorem values_finite_iff_googol :
    RangeForm.ofText? (Text.trimChars ("0-1".toList ++ List.replicate 100 '0' ++ " [3]".toList)) =
        some (.counted ['0'] ('1' :: List.replicate 100 '0') ['3']) ∧
      ∀ v ∈ (ofText (String.ofList ("0-1".toList ++ List.replicate 100 '0' ++ " [3]".toList))).values,
        v.isFinite = true := by
  have googol : RangeForm.ofText? (Text.trimChars ("0-1".toList ++ List.replicate 100 '0' ++ " [3]".toList)) =
      some (.counted ['0'] ('1' :: List.replicate 100 '0') ['3']) := by decide +kernel
  refine ⟨googol, (values_finite_iff _).2.1 fun form read => ?_⟩
  rw [String.toList_ofList] at read
  obtain rfl := Option.some.inj (googol.symm.trans read)
  decide +kernel

def infiniteStep : String := String.ofList ("1-5 (+".toList ++ List.replicate 309 '9' ++ [')'])

theorem toList_infiniteStep : infiniteStep.toList = "1-5 (+".toList ++ List.replicate 309 '9' ++ [')'] :=
  String.toList_ofList

theorem ofText_infiniteStep : ofText infiniteStep = ⟨[.number .nan], none⟩ := by
  have read : RangeForm.ofText? (Text.trimChars ("1-5 (+".toList ++ List.replicate 309 '9' ++ [')'])) =
      some (.stepped ['1'] ['5'] false (List.replicate 309 '9')) := by decide +kernel
  have values : (Expansion.ofForm (.stepped ['1'] ['5'] false (List.replicate 309 '9'))).values =
      [.number .nan] := by decide +kernel
  have accepted : (Expansion.ofForm (.stepped ['1'] ['5'] false (List.replicate 309 '9'))).problem = none := by
    decide +kernel
  rw [← toList_infiniteStep] at read
  rw [ofText_of_form read, values, accepted]
  rfl

/-- A step of 309 nines is infinite, so the range has one number, and it is no number at all. -/
theorem infinite_step_gives_nan :
    ofText (String.ofList ("1-5 (+".toList ++ List.replicate 309 '9' ++ [')'])) = ⟨[.number .nan], none⟩ ∧
      (Scalar.number .nan).toJson = .null :=
  ⟨ofText_infiniteStep, rfl⟩

end Row

end SettingsSweep

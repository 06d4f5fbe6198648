import SettingsSweep.Proofs.Axis.Points
import SettingsSweep.Proofs.Axis.RangeSpellings

/-!
How far the values of a stepped range can pass its end. The tolerance is added to the number of steps, so the last value
can pass the end by that part of a step, and by what rounding adds.
-/

set_option autoImplicit false

namespace SettingsSweep

open Binary64

theorem Decimal.toRat_toBinary64_nonneg {d : Decimal} (h : d.negative = false) : 0 ≤ d.toBinary64.toRat := by
  refine d.roundsTo_toBinary64.toRat_nonneg ?_
  rw [toRat, h, if_neg Bool.false_ne_true, one_mul]
  positivity

theorem Numeral.toRat_value_nonneg {numeral : Numeral} (h : numeral.head? ≠ some '-') : 0 ≤ numeral.value.toRat := by
  have sign : (Decimal.splitSign numeral).1 = false := by
    unfold Decimal.splitSign
    split
    · exact absurd rfl h
    · rfl
    · rfl
  unfold value Binary64.ofText?
  split
  · next d spelt =>
    exact Decimal.toRat_toBinary64_nonneg ((Decimal.negative_of_unsigned? spelt).trans sign)
  · -- A name stands for no finite number, and no number at all for zero.
    unfold named?
    dsimp only
    split
    · exact le_rfl
    · split
      · exact le_rfl
      · simp [Binary64.zero, toRat]

namespace Expansion

variable {start stop step : Binary64}

theorem stepped_accepted (h : (stepped start stop step).problem = none) :
    step.isZero = false ∧
      (start.same stop = true ∧ (stepped start stop step).values = [point start] ∨
        (stop - start).signum.same step.signum = true ∧
        ((stop - start) / step + tolerance).floor.isFinite = true ∧
        (ofNat maxValues).le ((stop - start) / step + tolerance).floor = false ∧
        (stepped start stop step).values =
          progression start step (((stop - start) / step + tolerance).floor.truncToNat + 1)) := by
  unfold stepped at h ⊢
  by_cases zero : step.isZero = true
  · rw [if_pos zero] at h
    cases h
  rw [if_neg zero] at h ⊢
  refine ⟨by simpa using zero, ?_⟩
  by_cases same : start.same stop = true
  · rw [if_pos same]
    exact .inl ⟨same, rfl⟩
  rw [if_neg same] at h ⊢
  by_cases away : (!(stop - start).signum.same step.signum) = true
  · rw [if_pos away] at h
    cases h
  rw [if_neg away] at h ⊢
  dsimp only at h ⊢
  split at h
  · cases h
  · next few =>
    rw [if_neg few]
    simp only [Bool.or_eq_true, Bool.not_eq_true', not_or, Bool.not_eq_true, Bool.not_eq_false] at few
    exact .inr ⟨by simpa using away, few.1, few.2, rfl⟩

theorem toRat_tolerance : 0 < tolerance.toRat ∧ tolerance.toRat ≤ 1 / 10 ^ 9 + 1 / 10 ^ 24 := by
  rw [tolerance_eq]
  constructor <;> norm_num [toRat]

theorem floor_of_pos {x : Binary64} (finite : x.isFinite = true) (pos : 0 < x.toRat)
    (few : (ofNat maxValues).le x.floor = false) :
    x.floor.truncToNat < 100000 ∧ (x.floor.truncToNat : ℚ) ≤ x.toRat := by
  obtain ⟨s, m, e, canonical, rfl⟩ := exists_eq_finite finite
  obtain rfl : s = false := by
    cases s with
    | false => rfl
    | true =>
      have : (0 : ℚ) ≤ m * 2 ^ e := by positivity
      simp only [toRat, if_true] at pos
      linarith
  obtain ⟨whole, rest, one, eq, -, value⟩ := wholePart_spec m e
  have floored : (Binary64.finite false m e canonical).floor = ofNat whole := by
    simp only [floor, eq, Bool.false_eq_true, false_and, if_false, ofNat]
  rw [floored] at few ⊢
  have small : whole < 100000 := by
    by_contra large
    rw [le_of_roundsTo (roundsTo_ofNat maxValues) (roundsTo_ofNat whole) (by exact_mod_cast not_lt.1 large)] at few
    cases few
  rw [truncToNat_ofNat (by omega)]
  refine ⟨small, ?_⟩
  have left : (0 : ℚ) ≤ rest / one := by positivity
  rw [toRat, if_neg Bool.false_ne_true, one_mul, value]
  linarith

/-- The errors of the width, of the quotient and of the sum with the tolerance, added up over all steps. -/
theorem steps_mul_le {w d width quotient tol sum n : ℚ} (nonzero : d ≠ 0) (forward : 0 ≤ width / d)
    (tol_pos : 0 < tol) (tol_le : tol ≤ 1 / 10 ^ 9 + 1 / 10 ^ 24)
    (atWidth : |width - w| ≤ |w| / 2 ^ 53 + 1 / 10 ^ 30)
    (atQuotient : |quotient - width / d| ≤ |width / d| / 2 ^ 53 + 1 / 10 ^ 30)
    (atSum : |sum - (quotient + tol)| ≤ |quotient + tol| / 2 ^ 53 + 1 / 10 ^ 30) (le : n ≤ sum) :
    n * |d| ≤ |w| + |w| / 2 ^ 51 + |d| / 10 ^ 9 + |d| / 10 ^ 20 + 1 / 10 ^ 20 := by
  have dpos : 0 < |d| := abs_pos.2 nonzero
  have ratio : width / d * |d| = |width| := by
    rw [← abs_of_nonneg forward, abs_div, div_mul_cancel₀ _ dpos.ne']
  have width_le := abs_le_add atWidth
  have quotient_le := abs_le_add atQuotient
  rw [abs_of_nonneg forward] at quotient_le
  have raised_le := abs_add_le quotient tol
  rw [abs_of_pos tol_pos] at raised_le
  have sum_le := (le_abs_self sum).trans (abs_le_add atSum)
  have count : n ≤ width / d * (1 + 1 / 2 ^ 53) ^ 2 + (1 / 10 ^ 9 + 1 / 10 ^ 22) := by linarith
  have scaled := mul_le_mul_of_nonneg_right count dpos.le
  have nonneg := abs_nonneg w
  have spread : (width / d * (1 + 1 / 2 ^ 53) ^ 2 + (1 / 10 ^ 9 + 1 / 10 ^ 22)) * |d| =
      |width| * (1 + 1 / 2 ^ 53) ^ 2 + (1 / 10 ^ 9 + 1 / 10 ^ 22) * |d| := by
    rw [← ratio]
    ring
  rw [spread] at scaled
  linarith

theorem abs_le_of_toward {w width : ℚ} (nonneg : 0 ≤ width) (atWidth : |width - w| ≤ |w| / 2 ^ 53 + 1 / 10 ^ 30) :
    |w| ≤ w + 1 / 10 ^ 20 := by
  rcases le_total 0 w with h | h
  · rw [abs_of_nonneg h]
    linarith
  · rw [abs_of_nonpos h] at *
    have := (abs_le.1 atWidth).2
    linarith

/-- What `n` steps of `d` from `s` come to: no more than the way to `e`, but for the tolerance in steps and for roundings;
    and `e` is on the side to which the steps lead. -/
structure Reaches (s e d : ℚ) (n : Nat) : Prop where
  few : n < 100000
  way : n * |d| ≤ |e - s| + |e - s| / 2 ^ 51 + |d| / 10 ^ 9 + |d| / 10 ^ 20 + 1 / 10 ^ 20
  side : |e - s| ≤ (if d < 0 then s - e else e - s) + 1 / 10 ^ 20

theorem reaches_floor (fstart : start.isFinite = true) (fstop : stop.isFinite = true) (fstep : step.isFinite = true)
    (nonzero : step.isZero = false) (forward : (stop - start).signum.same step.signum = true)
    (fsteps : ((stop - start) / step + tolerance).floor.isFinite = true)
    (few : (ofNat maxValues).le ((stop - start) / step + tolerance).floor = false) :
    Reaches start.toRat stop.toRat step.toRat ((stop - start) / step + tolerance).floor.truncToNat := by
  have fsum := isFinite_of_floor fsteps
  have fquotient := isFinite_of_add fsum
  have fwidth := isFinite_of_div fstep fquotient
  have ftol : tolerance.isFinite = true := by
    rw [tolerance_eq]
    rfl
  have nonzero' := toRat_ne_zero fstep nonzero
  obtain ⟨tol_pos, tol_le⟩ := toRat_tolerance
  have atWidth := (roundsTo_sub fstop fstart).close fwidth
  have quotient := roundsTo_div fwidth fstep nonzero'
  have sum := roundsTo_add fquotient ftol
  have side := same_side_of_signum fwidth fstep forward
  have toward : 0 ≤ (stop - start).toRat / step.toRat := by
    rcases side with ⟨h, h'⟩ | ⟨h, h'⟩
    · exact div_nonneg h h'
    · exact div_nonneg_of_nonpos h h'
  have pos : 0 < ((stop - start) / step + tolerance).toRat := by
    rw [sum.toRat fsum]
    have least := (roundsTo_self ftol).toRat ftol
    refine lt_of_lt_of_le (least ▸ tol_pos) (nearestTo_mono ?_)
    have := quotient.toRat_nonneg toward
    linarith
  obtain ⟨small, reach⟩ := floor_of_pos fsum pos few
  refine ⟨small, ?_, ?_⟩
  · exact steps_mul_le nonzero' toward tol_pos tol_le atWidth (quotient.close fquotient) (sum.close fsum) reach
  · split
    · next down =>
      have negative := (side.resolve_left fun up => absurd down (not_lt.2 up.2)).1
      have mirrored := abs_le_of_toward (w := start.toRat - stop.toRat) (neg_nonneg.2 negative) (by
        rw [abs_sub_comm start.toRat, ← abs_neg]
        convert atWidth using 2
        ring)
      rwa [abs_sub_comm start.toRat] at mirrored
    · next up =>
      have positive : 0 ≤ (stop - start).toRat := by
        rcases side with h | h
        · exact h.1
        · exact absurd (lt_of_le_of_ne h.2 nonzero') up
      exact abs_le_of_toward positive atWidth

def shifted (down : Bool) (limit amount : ℚ) : ℚ := if down then limit - amount else limit + amount

/-- By how much a range can pass its end: a part of a step for the tolerance, and the rest for roundings. -/
def slack (start stop step : ℚ) : ℚ := |step| / 10 ^ 9 + 6 / 10 ^ 11 + (|start| + |stop| + |step|) / 2 ^ 48

theorem slack_neg (s e d : ℚ) : slack (-s) (-e) (-d) = slack s e d := by
  rw [slack, slack, abs_neg, abs_neg, abs_neg]

section

variable {s e d x : ℚ} {n : Nat}

theorem Reaches.neg (h : Reaches s e d n) (nonzero : d ≠ 0) : Reaches (-s) (-e) (-d) n := by
  obtain ⟨few, way, side⟩ := h
  have width : |-e - -s| = |e - s| := by rw [neg_sub_neg, abs_sub_comm]
  refine ⟨few, ?_, ?_⟩
  · rw [abs_neg, width]
    exact way
  · rw [width]
    refine side.trans (le_of_eq ?_)
    by_cases down : d < 0
    · rw [if_pos down, if_neg (not_lt.2 (neg_pos.2 down).le), neg_sub_neg]
    · have up : -d < 0 := neg_neg_of_pos (lt_of_le_of_ne (not_lt.1 down) nonzero.symm)
      rw [if_neg down, if_pos up, neg_sub_neg]

theorem Reaches.roomy (h : Reaches s e d n) (small : |s| + |e| + |d| ≤ moderate) : |s| + |n * d| ≤ 10 * moderate := by
  have way := h.way
  have width_le := abs_sub e s
  have one := one_le_moderate
  have s_nonneg := abs_nonneg s
  have e_nonneg := abs_nonneg e
  have d_nonneg := abs_nonneg d
  rw [abs_mul, Nat.abs_cast]
  linarith

theorem Reaches.le_end (h : Reaches s e d n) (up : 0 < d)
    (place : |x - (s + n * d)| ≤ 52 / 10 ^ 12 + (3 * |n * d| + 6 * |s + n * d|) / 2 ^ 53) :
    x ≤ e + slack s e d := by
  obtain ⟨-, way, side⟩ := h
  rw [if_neg (not_lt.2 up.le)] at side
  have width_le := abs_sub e s
  have same : (n : ℚ) * d = n * |d| := by rw [abs_of_pos up]
  have nonneg : 0 ≤ (n : ℚ) * |d| := by positivity
  have place_le := abs_add_le s (n * |d|)
  rw [same] at place
  generalize (n : ℚ) * |d| = walked at *
  rw [abs_of_nonneg nonneg] at place place_le
  have s_nonneg := abs_nonneg s
  have e_nonneg := abs_nonneg e
  have d_nonneg := abs_nonneg d
  have last := (abs_le.1 place).2
  rw [slack]
  linarith

theorem Reaches.end_le (h : Reaches s e d n) (down : d < 0)
    (place : |x - (s + n * d)| ≤ 52 / 10 ^ 12 + (3 * |n * d| + 6 * |s + n * d|) / 2 ^ 53) :
    e - slack s e d ≤ x := by
  have mirrored : -x ≤ -e + slack (-s) (-e) (-d) := by
    refine (h.neg down.ne).le_end (neg_pos.2 down) ?_
    rw [show (n : ℚ) * -d = -(n * d) by ring, abs_neg, show -s + -(n * d) = -(s + n * d) by ring, abs_neg,
      neg_sub_neg, abs_sub_comm]
    exact place
  rw [slack_neg] at mirrored
  linarith

end

theorem not_beyond_of_le {down : Bool} {limit amount amount' : ℚ} (le : amount ≤ amount') {x : Binary64}
    (h : ¬ Beyond down (shifted down limit amount) x) : ¬ Beyond down (shifted down limit amount') x := by
  intro beyond
  apply h
  cases x with
  | finite s m e canonical =>
    rw [beyond_iff rfl] at beyond ⊢
    cases down with
    | false => exact lt_of_le_of_lt (add_le_add_right le limit) beyond
    | true => exact lt_of_lt_of_le beyond (sub_le_sub_left le limit)
  | infinite s => exact beyond
  | nan => trivial

theorem numberAt_not_beyond {n : Nat} (fstart : start.isFinite = true) (fstep : step.isFinite = true)
    (nonzero : step.toRat ≠ 0) (small : |start.toRat| + |stop.toRat| + |step.toRat| ≤ moderate)
    (reaches : Reaches start.toRat stop.toRat step.toRat n) :
    ¬ Beyond step.leadsDown (shifted step.leadsDown stop.toRat (slack start.toRat stop.toRat step.toRat))
      (numberAt start step n) := by
  have roomy := reaches.roomy small
  have inRange : n < 2 ^ 53 := by
    have := reaches.few
    omega
  obtain ⟨finite, place⟩ := numberAt_near fstart fstep inRange roomy
  rw [beyond_iff finite, shifted, leadsDown]
  by_cases down : step.toRat < 0
  · rw [decide_eq_true down, if_pos rfl, if_pos rfl, not_lt]
    exact reaches.end_le down place
  · rw [decide_eq_false down, if_neg Bool.false_ne_true, if_neg Bool.false_ne_true, not_lt]
    exact reaches.le_end (lt_of_le_of_ne (not_lt.1 down) nonzero.symm) place

theorem tenPlaces_not_beyond {down : Bool} {step : ℚ} (fstart : start.isFinite = true)
    (same : start.toRat = stop.toRat) (small : |start.toRat| + |stop.toRat| + |step| ≤ moderate) :
    ¬ Beyond down (shifted down stop.toRat (slack start.toRat stop.toRat step)) (tenPlaces start) := by
  have one := one_le_moderate
  have start_nonneg := abs_nonneg start.toRat
  have stop_nonneg := abs_nonneg stop.toRat
  have step_nonneg := abs_nonneg step
  obtain ⟨finite, near⟩ := tenPlaces_near fstart (by linarith)
  rw [beyond_iff finite, shifted, slack]
  rw [abs_le] at near
  cases down with
  | false =>
    rw [if_neg Bool.false_ne_true, if_neg Bool.false_ne_true, not_lt]
    linarith
  | true =>
    rw [if_pos rfl, if_pos rfl, not_lt]
    linarith

/-- An accepted range goes one way, and its last number passes the end by no more than the slack. -/
theorem stepped_end (fstart : start.isFinite = true) (fstop : stop.isFinite = true) (fstep : step.isFinite = true)
    (accepted : (stepped start stop step).problem = none) :
    step.toRat ≠ 0 ∧ ∃ (numbers : List Binary64) (last : Binary64),
      (stepped start stop step).values = numbers.map .number ∧ numbers.getLast? = some last ∧
      (∀ limit, (∀ x ∈ numbers, ¬ Beyond step.leadsDown limit x) ↔ ¬ Beyond step.leadsDown limit last) ∧
      (|start.toRat| + |stop.toRat| + |step.toRat| ≤ moderate →
        ¬ Beyond step.leadsDown (shifted step.leadsDown stop.toRat (slack start.toRat stop.toRat step.toRat)) last) := by
  obtain ⟨visible, ⟨same, values⟩ | ⟨forward, fsteps, few, values⟩⟩ := stepped_accepted accepted
  · refine ⟨toRat_ne_zero fstep visible, [tenPlaces start], tenPlaces start, values, rfl, by simp, fun small => ?_⟩
    exact tenPlaces_not_beyond fstart ((same_iff fstart fstop).1 same) small
  · have reaches := reaches_floor fstart fstop fstep visible forward fsteps few
    generalize ((stop - start) / step + tolerance).floor.truncToNat = n at values reaches
    have nonzero := toRat_ne_zero fstep visible
    have inRange : n < 2 ^ 53 := by
      have := reaches.few
      omega
    refine ⟨nonzero, (List.range (n + 1)).map (numberAt start step), numberAt start step n, ?_, ?_,
      beyond_numberAt_iff fstart fstep inRange, fun small => numberAt_not_beyond fstart fstep nonzero small reaches⟩
    · rw [values, progression, List.map_map]
      rfl
    · rw [List.range_succ, List.map_append]
      exact List.getLast?_concat

end Expansion

namespace Row

open Expansion (shifted slack)

theorem signed_step (down : Bool) {step : Binary64} (finite : step.isFinite = true) (nonneg : 0 ≤ step.toRat) :
    (if down then -step else step).isFinite = true ∧ |(if down then -step else step).toRat| = |step.toRat| ∧
      ((if down then -step else step).toRat ≠ 0 → (if down then -step else step).leadsDown = down) := by
  cases down with
  | false => exact ⟨finite, rfl, fun _ => decide_eq_false (not_lt.2 nonneg)⟩
  | true =>
    have opposite : (-step).toRat = -step.toRat := toRat_neg step
    simp only [if_true, leadsDown, opposite, abs_neg, true_and]
    refine ⟨isFinite_neg finite, fun nonzero => decide_eq_true ?_⟩
    exact lt_of_le_of_ne (neg_nonpos.2 nonneg) nonzero

/-- The values of an accepted stepped range go one way, so the last one decides whether any passes a limit. None passes
    the end by more than the tolerance in steps and the roundings, and none by more than the tolerance itself if the
    bounds are small and the step is less than one. -/
theorem stepped_range_end {text : String} {start stop step : Numeral} {down : Bool}
    (form : RangeForm.ofText? (Text.trimChars text.toList) = some (.stepped start stop down step))
    (accepted : (ofText text).warning = none) (fstart : start.value.isFinite = true)
    (fstop : stop.value.isFinite = true) (fstep : step.value.isFinite = true) :
    ∃ (numbers : List Binary64) (last : Binary64),
      (ofText text).values = numbers.map .number ∧ numbers.getLast? = some last ∧
      (∀ limit, (∀ x ∈ numbers, ¬ Beyond down limit x) ↔ ¬ Beyond down limit last) ∧
      (|start.value.toRat| + |stop.value.toRat| + |step.value.toRat| ≤ moderate →
        ∀ x ∈ numbers, ¬ Beyond down (shifted down stop.value.toRat
          (slack start.value.toRat stop.value.toRat step.value.toRat)) x) ∧
      (|start.value.toRat| ≤ 10 ^ 4 → |stop.value.toRat| ≤ 10 ^ 4 → |step.value.toRat| ≤ 4 / 5 →
        ∀ x ∈ numbers, ¬ Beyond down (shifted down stop.value.toRat (1 / 10 ^ 9)) x) := by
  rw [ofText_of_form form] at accepted ⊢
  have problem := Option.map_eq_none_iff.1 accepted
  have nonneg := Numeral.toRat_value_nonneg (RangeForm.head?_step form)
  obtain ⟨finite, size, sign⟩ := signed_step down fstep nonneg
  obtain ⟨nonzero, numbers, last, values, atEnd, one_way, within⟩ :=
    Expansion.stepped_end fstart fstop finite problem
  rw [sign nonzero] at one_way within
  rw [slack, size] at within
  have reach : |start.value.toRat| + |stop.value.toRat| + |step.value.toRat| ≤ moderate → ∀ x ∈ numbers,
      ¬ Beyond down (shifted down stop.value.toRat (slack start.value.toRat stop.value.toRat step.value.toRat)) x :=
    fun small => (one_way _).2 (within small)
  refine ⟨numbers, last, values, atEnd, one_way, reach, fun smallStart smallStop smallStep x hx => ?_⟩
  have large := million_le_moderate
  refine Expansion.not_beyond_of_le ?_ (reach (by linarith) x hx)
  rw [slack]
  linarith

theorem stepped_range_end_half : ∃ numbers : List Binary64, (ofText "3-1 (-0.5)").values = numbers.map .number ∧
    ∀ x ∈ numbers, ¬ Beyond true (1 - 1 / 10 ^ 9) x := by
  have three : (Numeral.value ['3']).toRat = 3 := by
    rw [show Numeral.value ['3'] = .ofInt 3 by decide +kernel, (isInt_ofInt (by decide)).toRat]
    norm_num
  have one : (Numeral.value ['1']).toRat = 1 := by
    rw [show Numeral.value ['1'] = .ofInt 1 by decide +kernel, (isInt_ofInt (by decide)).toRat]
    norm_num
  have half : (Numeral.value ['0', '.', '5']).toRat = 1 / 2 := by
    rw [show Numeral.value ['0', '.', '5'] = .finite false (2 ^ 52) (-53) (by decide) by decide +kernel]
    norm_num [toRat]
  obtain ⟨numbers, last, values, -, -, -, within⟩ :=
    stepped_range_end (show RangeForm.ofText? (Text.trimChars "3-1 (-0.5)".toList) =
      some (.stepped ['3'] ['1'] true ['0', '.', '5']) by decide) (by decide +kernel) (by decide +kernel)
      (by decide +kernel) (by decide +kernel)
  rw [three, one, half] at within
  exact ⟨numbers, values, within (by norm_num) (by norm_num) (by norm_num)⟩

/-- The tolerance is a part of a step of ten billion: the second value passes the end by one. -/
theorem stepped_range_passes_end :
    RangeForm.ofText? (Text.trimChars "0-9999999999 (+10000000000)".toList) =
        some (.stepped "0".toList "9999999999".toList false "10000000000".toList) ∧
      (ofText "0-9999999999 (+10000000000)").warning = none ∧
      (ofText "0-9999999999 (+10000000000)").values = [.number (.ofInt 0), .number (.ofInt 10000000000)] ∧
      Beyond false (shifted false (Numeral.value "9999999999".toList).toRat (1 / 10 ^ 9)) (.ofInt 10000000000) := by
  have stop : Numeral.value "9999999999".toList = .ofInt 9999999999 := by decide +kernel
  have last := isInt_ofInt (k := 10000000000) (by decide)
  refine ⟨by decide, by decide +kernel, by decide +kernel, ?_⟩
  rw [beyond_iff last.finite, last.toRat, stop, (isInt_ofInt (by decide)).toRat]
  norm_num [shifted]

end Row

end SettingsSweep

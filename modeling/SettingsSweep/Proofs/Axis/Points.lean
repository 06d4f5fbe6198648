import SettingsSweep.Axis.Expression
import SettingsSweep.Proofs.Number.Operations

/-!
The numbers of a progression. Every operation on the way from an index to its number keeps the order, so the numbers go
one way and the last one decides which limits they pass; and every operation makes a small error, so each number is close
to its place.
-/

set_option autoImplicit false

namespace SettingsSweep

namespace Binary64

/-- Whether a number lies past a limit on the way down or up. -/
def Beyond (down : Bool) (limit : ℚ) : Binary64 → Prop
  | .finite s m e canonical =>
    if down then (finite s m e canonical).toRat < limit else limit < (finite s m e canonical).toRat
  | .infinite s => s = down
  | .nan => True

theorem beyond_iff {x : Binary64} (h : x.isFinite = true) (down : Bool) (limit : ℚ) :
    Beyond down limit x ↔ if down then x.toRat < limit else limit < x.toRat := by
  obtain ⟨s, m, e, canonical, rfl⟩ := exists_eq_finite h
  rfl

theorem Beyond.later {down : Bool} {limit : ℚ} {x y : Binary64}
    (order : if down then y.le x = true else x.le y = true) (h : Beyond down limit x) : Beyond down limit y := by
  have ne_nan : x ≠ .nan ∧ y ≠ .nan := by
    cases down with
    | false => exact le_ne_nan order
    | true => exact (le_ne_nan order).symm
  cases x with
  | nan => exact absurd rfl ne_nan.1
  | infinite s =>
    obtain rfl : s = down := h
    cases y with
    | nan => trivial
    | infinite t => cases s <;> cases t <;> simp_all [le, compare?, Beyond]
    | finite t n f hn => cases s <;> simp [le, compare?] at order
  | finite s m e hm =>
    cases y with
    | nan => trivial
    | infinite t => cases down <;> cases t <;> simp_all [le, compare?, Beyond]
    | finite t n f hn =>
      rw [beyond_iff rfl] at h ⊢
      cases down with
      | false => exact lt_of_lt_of_le h ((le_iff rfl rfl).1 order)
      | true => exact lt_of_le_of_lt ((le_iff rfl rfl).1 order) h

def leadsDown (step : Binary64) : Bool := step.toRat < 0

end Binary64

namespace Expansion

open Binary64

variable {x y start step : Binary64} {i j : Nat}

theorem isInt_tenBillion : IsInt tenBillion ((10 ^ 10 : Nat) : Int) := isInt_ofNat (by decide)

theorem toRat_tenBillion : tenBillion.toRat = 10 ^ 10 := by
  rw [isInt_tenBillion.toRat]
  norm_num

def plainZero (x : Binary64) : Binary64 := if x.isZero then .zero false else x

theorem tenPlaces_eq_plainZero (x : Binary64) :
    tenPlaces x = plainZero ((x * tenBillion).round / tenBillion) := rfl

theorem roundsTo_plainZero (hx : x.isFinite = true) : RoundsTo x.toRat (plainZero x) := by
  unfold plainZero
  split
  · next zero =>
    obtain ⟨s, m, e, canonical, rfl⟩ := exists_eq_finite hx
    obtain rfl : m = 0 := by simpa [isZero] using zero
    have none : (finite s 0 e canonical).toRat = 0 := by simp [toRat]
    rw [none]
    exact roundsTo_zero rfl
  · exact roundsTo_self hx

theorem toRat_plainZero (hx : x.isFinite = true) :
    (plainZero x).isFinite = true ∧ (plainZero x).toRat = x.toRat := by
  have finite : (plainZero x).isFinite = true := by
    unfold plainZero
    split
    · rfl
    · exact hx
  exact ⟨finite, ((roundsTo_plainZero hx).toRat finite).trans ((roundsTo_self hx).toRat hx).symm⟩

theorem tenPlaces_le (h : x.le y = true) : (tenPlaces x).le (tenPlaces y) = true := by
  have finite := isInt_tenBillion.finite
  have nonzero : tenBillion.toRat ≠ 0 := by
    rw [toRat_tenBillion]
    norm_num
  have pos : 0 ≤ tenBillion.toRat := by
    rw [toRat_tenBillion]
    norm_num
  have scaled : (x * tenBillion).le (y * tenBillion) = true :=
    le_of_monotone (f := (· * tenBillion)) (g := (· * tenBillion.toRat))
      (fun p q h => mul_le_mul_of_nonneg_right h pos) (by decide +kernel) (fun z hz => roundsTo_mul hz finite) h
  have whole : (x * tenBillion).round.le (y * tenBillion).round = true :=
    le_of_monotone (f := round) (g := fun q => (roundAway q : ℚ)) (fun p q h => Int.cast_le.2 (roundAway_mono h))
      (fun _ => rfl) (fun z hz => roundsTo_round hz) scaled
  have back : ((x * tenBillion).round / tenBillion).le ((y * tenBillion).round / tenBillion) = true :=
    le_of_monotone (f := (· / tenBillion)) (g := (· / tenBillion.toRat))
      (fun p q h => div_le_div_of_nonneg_right h pos) (by decide +kernel)
      (fun z hz => roundsTo_div hz finite nonzero) whole
  exact le_of_monotone (f := plainZero) monotone_id (fun _ => rfl) (fun z hz => roundsTo_plainZero hz) back

def numberAt (start step : Binary64) (i : Nat) : Binary64 := tenPlaces (start + ofNat i * step)

theorem numberAt_le (fstart : start.isFinite = true) (fstep : step.isFinite = true) (hi : i < 2 ^ 53)
    (hj : j < 2 ^ 53) (h : (i : ℚ) * step.toRat ≤ j * step.toRat) :
    (numberAt start step i).le (numberAt start step j) = true := by
  have moved : ∀ {n : Nat}, n < 2 ^ 53 → RoundsTo (n * step.toRat) (ofNat n * step) := by
    intro n hn
    have product := roundsTo_mul (isInt_ofNat hn).finite fstep
    rwa [(isInt_ofNat hn).toRat, Int.cast_natCast] at product
  have distance : (ofNat i * step).le (ofNat j * step) = true := le_of_roundsTo (moved hi) (moved hj) h
  refine tenPlaces_le (le_of_monotone (f := (start + ·)) (g := (start.toRat + ·)) ?_ ?_ ?_ distance)
  · exact fun p q h => add_le_add_right h _
  · intro s
    obtain ⟨t, m, e, canonical, rfl⟩ := exists_eq_finite fstart
    rfl
  · exact fun z hz => roundsTo_add fstart hz

/-- The numbers of a progression go one way, so the last one decides. -/
theorem beyond_numberAt_iff (fstart : start.isFinite = true) (fstep : step.isFinite = true) {n : Nat}
    (hn : n < 2 ^ 53) (limit : ℚ) :
    (∀ x ∈ (List.range (n + 1)).map (numberAt start step), ¬ Beyond step.leadsDown limit x) ↔
      ¬ Beyond step.leadsDown limit (numberAt start step n) := by
  constructor
  · intro h
    exact h _ (List.mem_map_of_mem (List.mem_range.2 (Nat.lt_succ_self n)))
  · intro last x hx beyond
    obtain ⟨i, hi, rfl⟩ := List.mem_map.1 hx
    have le : i ≤ n := Nat.lt_succ_iff.1 (List.mem_range.1 hi)
    have le' : (i : ℚ) ≤ n := by exact_mod_cast le
    refine last (beyond.later ?_)
    by_cases down : step.toRat < 0
    · rw [if_pos (show step.leadsDown = true from decide_eq_true down)]
      exact numberAt_le fstart fstep hn (by omega) (mul_le_mul_of_nonpos_right le' down.le)
    · rw [if_neg (by simpa [leadsDown] using down)]
      exact numberAt_le fstart fstep (by omega) hn (mul_le_mul_of_nonneg_right le' (not_lt.1 down))

theorem abs_le_add {p q error : ℚ} (h : |p - q| ≤ error) : |p| ≤ |q| + error := by
  have := abs_sub_abs_le_abs_sub p q
  linarith

theorem abs_scaled (q : ℚ) : |q * 10 ^ 10| = |q| * 10 ^ 10 := by
  rw [abs_mul, abs_of_pos (by norm_num : (0 : ℚ) < 10 ^ 10)]

theorem abs_scaled_back (q : ℚ) : |q / 10 ^ 10| = |q| / 10 ^ 10 := by
  rw [abs_div, abs_of_pos (by norm_num : (0 : ℚ) < 10 ^ 10)]

/-- The errors of a product with `10^10`, of the nearest integer and of the quotient, added up. -/
theorem abs_sub_le_of_scaled {q product whole rounded back : ℚ}
    (atProduct : |product - q * 10 ^ 10| ≤ |q| * 10 ^ 10 / 2 ^ 53 + 1 / 10 ^ 30)
    (atWhole : |whole - product| ≤ 1 / 2)
    (atRounded : |rounded - whole| ≤ |whole| / 2 ^ 53 + 1 / 10 ^ 30)
    (atBack : |back - rounded / 10 ^ 10| ≤ |rounded| / 10 ^ 10 / 2 ^ 53 + 1 / 10 ^ 30) :
    |back - q| ≤ 51 / 10 ^ 12 + |q| / 2 ^ 51 := by
  have product_le := abs_le_add atProduct
  rw [abs_scaled] at product_le
  have whole_le := abs_le_add atWhole
  have rounded_le := abs_le_add atRounded
  have nonneg := abs_nonneg q
  rw [abs_le] at atProduct atWhole atRounded atBack ⊢
  constructor
  · linarith
  · linarith

theorem tenPlaces_near (hx : x.isFinite = true) (small : |x.toRat| ≤ 10 ^ 6 * moderate) :
    (tenPlaces x).isFinite = true ∧ |(tenPlaces x).toRat - x.toRat| ≤ 51 / 10 ^ 12 + |x.toRat| / 2 ^ 51 := by
  have finite := isInt_tenBillion.finite
  have nonzero : tenBillion.toRat ≠ 0 := by
    rw [toRat_tenBillion]
    norm_num
  have one := one_le_moderate
  have product := roundsTo_mul hx finite
  rw [toRat_tenBillion] at product
  obtain ⟨fproduct, atProduct⟩ := product.near (by rw [abs_scaled]; linarith)
  rw [abs_scaled] at atProduct
  have product_le := abs_le_add atProduct
  rw [abs_scaled] at product_le
  have atWhole := abs_roundAway_sub_le (x * tenBillion).toRat
  have rounded := roundsTo_round fproduct
  generalize (roundAway (x * tenBillion).toRat : ℚ) = whole at atWhole rounded
  have whole_le := abs_le_add atWhole
  have nonneg := abs_nonneg x.toRat
  obtain ⟨frounded, atRounded⟩ := rounded.near (by linarith)
  have rounded_le := abs_le_add atRounded
  have back := roundsTo_div frounded finite nonzero
  rw [toRat_tenBillion] at back
  obtain ⟨fback, atBack⟩ := back.near (by rw [abs_scaled_back]; linarith)
  rw [abs_scaled_back] at atBack
  rw [tenPlaces_eq_plainZero, (toRat_plainZero fback).2]
  exact ⟨(toRat_plainZero fback).1, abs_sub_le_of_scaled atProduct atWhole atRounded atBack⟩

/-- The errors of the distance from the start, of the sum and of ten places, added up. -/
theorem abs_sub_le_of_moved {s distance moved sum shown : ℚ}
    (atMoved : |moved - distance| ≤ |distance| / 2 ^ 53 + 1 / 10 ^ 30)
    (atSum : |sum - (s + moved)| ≤ |s + moved| / 2 ^ 53 + 1 / 10 ^ 30)
    (atShown : |shown - sum| ≤ 51 / 10 ^ 12 + |sum| / 2 ^ 51) :
    |shown - (s + distance)| ≤ 52 / 10 ^ 12 + (3 * |distance| + 6 * |s + distance|) / 2 ^ 53 := by
  have place_le : |s + moved| ≤ |s + distance| + (|distance| / 2 ^ 53 + 1 / 10 ^ 30) := by
    refine abs_le_add ?_
    rwa [add_sub_add_left_eq_sub]
  have sum_le := abs_le_add atSum
  have nonneg := abs_nonneg distance
  have nonneg' := abs_nonneg (s + distance)
  generalize |distance| = c at *
  generalize |s + distance| = g at *
  generalize |s + moved| = g' at *
  rw [abs_le] at atMoved atSum atShown ⊢
  constructor
  · linarith
  · linarith

theorem numberAt_near (fstart : start.isFinite = true) (fstep : step.isFinite = true) (hi : i < 2 ^ 53)
    (small : |start.toRat| + |i * step.toRat| ≤ 10 * moderate) :
    (numberAt start step i).isFinite = true ∧
      |(numberAt start step i).toRat - (start.toRat + i * step.toRat)| ≤
        52 / 10 ^ 12 + (3 * |i * step.toRat| + 6 * |start.toRat + i * step.toRat|) / 2 ^ 53 := by
  have one := one_le_moderate
  have index := isInt_ofNat hi
  have moved := roundsTo_mul index.finite fstep
  rw [index.toRat, Int.cast_natCast] at moved
  generalize (i : ℚ) * step.toRat = distance at small moved
  have nonneg := abs_nonneg distance
  have nonneg' := abs_nonneg start.toRat
  obtain ⟨fmoved, atMoved⟩ := moved.near (by linarith)
  have moved_le := abs_le_add atMoved
  have place_le := abs_add_le start.toRat (ofNat i * step).toRat
  obtain ⟨fsum, atSum⟩ := (roundsTo_add fstart fmoved).near (by linarith)
  have sum_le := abs_le_add atSum
  obtain ⟨fshown, atShown⟩ := tenPlaces_near fsum (by linarith)
  exact ⟨fshown, abs_sub_le_of_moved atMoved atSum atShown⟩

end Expansion

end SettingsSweep

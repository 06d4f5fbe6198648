import SettingsSweep.Proofs.Number.Operations

/-!
When an operation overflows: exactly where its true result is at least half a unit past the largest number. So what
stands between two finite numbers is finite, and a finite sum or product has finite terms.
-/

set_option autoImplicit false

namespace SettingsSweep.Binary64

variable {x y z : Binary64} {q : ℚ}

/-- The least magnitude that is rounded to infinity. -/
def limit : ℚ := 2 ^ (1024 : Int) - 2 ^ (970 : Int)

theorem limit_eq : limit = (((2 ^ 54 - 1) * 2 ^ 970 : Nat) : ℚ) / (1 : Nat) := by
  have top : (2 : ℚ) ^ (1024 : Int) = 2 ^ 54 * 2 ^ (970 : Int) := by
    rw [← zpow_natCast, ← zpow_add₀ (by norm_num)]
    rfl
  have low : (2 : ℚ) ^ (970 : Int) = ((2 ^ 970 : Nat) : ℚ) := by
    rw [Nat.cast_pow, Nat.cast_ofNat, ← zpow_natCast]
    rfl
  rw [limit, top, low, Nat.cast_mul, Nat.cast_one, div_one]
  generalize ((2 ^ 970 : Nat) : ℚ) = unit
  norm_num
  ring

/-- The limit is a tie between the largest number and the power of two above it, which is the even one. -/
theorem unbounded_limit : unbounded ((2 ^ 54 - 1) * 2 ^ 970) 1 = 2 ^ (1024 : Int) := by
  have unit : unitExponent ((2 ^ 54 - 1) * 2 ^ 970) 1 = 971 := by decide +kernel
  have carry : roundHalfEven (inUnits ((2 ^ 54 - 1) * 2 ^ 970) 1 971).1
      (inUnits ((2 ^ 54 - 1) * 2 ^ 970) 1 971).2 = 2 ^ 53 := by decide +kernel
  rw [unbounded, unit, carry, Nat.cast_pow, Nat.cast_ofNat, ← zpow_natCast, ← zpow_add₀ (by norm_num)]
  rfl

theorem unbounded_lt_iff {num den : Nat} (hn : 0 < num) (hd : 0 < den) :
    unbounded num den < 2 ^ (1024 : Int) ↔ (num : ℚ) / den < limit := by
  constructor
  · intro small
    by_contra large
    rw [not_lt, limit_eq] at large
    have most := unbounded_mono (by positivity) Nat.one_pos hd large
    rw [unbounded_limit] at most
    exact absurd small (not_lt.2 most)
  · intro small
    have unit := hasUnit_unitExponent hn hd
    have error := abs_units_sub_le num hd (unitExponent num den)
    have most : unitExponent num den ≤ 971 := by
      rcases unit.le with least | low
      · omega
      · have below : (2 : ℚ) ^ (unitExponent num den + 52) < 2 ^ (1024 : Int) := by
          refine low.trans_lt (small.trans ?_)
          rw [limit]
          exact sub_lt_self _ (by positivity)
        have := (zpow_lt_zpow_iff_right₀ (by norm_num : (1 : ℚ) < 2)).1 below
        omega
    have half : (2 : ℚ) ^ unitExponent num den / 2 ≤ 2 ^ (970 : Int) := by
      rw [div_eq_mul_inv, ← zpow_sub_one₀ (by norm_num)]
      exact zpow_le_zpow_right₀ (by norm_num) (by omega)
    have above := (abs_le.1 error).2
    rw [limit] at small
    unfold unbounded
    linarith

theorem abs_nearestTo_lt_iff (q : ℚ) : |nearestTo q| < 2 ^ (1024 : Int) ↔ |q| < limit := by
  rw [abs_nearestTo]
  by_cases none : q = 0
  · have pos : 0 < limit := sub_pos.2 (zpow_lt_zpow_right₀ (by norm_num) (by norm_num))
    rw [none, magnitude_zero, abs_zero]
    exact iff_of_true (by positivity) pos
  · rw [magnitude, unbounded_lt_iff (natAbs_num_pos none) q.den_pos, natAbs_num_div_den]

theorem RoundsTo.isFinite_iff (h : RoundsTo q x) : x.isFinite = true ↔ |q| < limit := by
  rw [← abs_nearestTo_lt_iff]
  rcases h with ⟨finite, -, lt⟩ | ⟨rfl, le⟩
  · exact iff_of_true finite lt
  · exact iff_of_false Bool.false_ne_true (not_lt.2 le)

theorem abs_toRat_lt (hx : x.isFinite = true) : |x.toRat| < limit := (roundsTo_self hx).isFinite_iff.1 hx

theorem isFinite_of_le_of_le (hx : x.isFinite = true) (hz : z.isFinite = true) (low : x.le y = true)
    (high : y.le z = true) : y.isFinite = true := by
  obtain ⟨s, m, e, hm, rfl⟩ := exists_eq_finite hx
  obtain ⟨t, n, f, hn, rfl⟩ := exists_eq_finite hz
  cases y with
  | finite s m e canonical => rfl
  | nan => exact absurd rfl (le_ne_nan low).2
  | infinite s =>
    cases s with
    | true => simp [le, compare?] at low
    | false => simp [le, compare?] at high

theorem isFinite_of_add_right (h : (x + y).isFinite = true) : y.isFinite = true := by
  have fx := isFinite_of_add h
  obtain ⟨s, m, e, hm, rfl⟩ := exists_eq_finite fx
  cases y with
  | finite t n f hn => rfl
  | infinite t => exact h
  | nan => exact h

theorem isFinite_of_mul_right (hx : x.isFinite = true) (h : (x * y).isFinite = true) : y.isFinite = true := by
  obtain ⟨s, m, e, hm, rfl⟩ := exists_eq_finite hx
  cases y with
  | finite t n f hn => rfl
  | infinite t =>
    change (if m = 0 then Binary64.nan else .infinite (t != s)).isFinite = true at h
    split at h <;> cases h
  | nan => exact h

def largest : Int := (2 ^ 53 - 1) * 2 ^ 971

theorem largest_eq : (largest : ℚ) = (2 ^ 53 - 1) * 2 ^ (971 : Int) := by
  rw [largest, Int.cast_mul, Int.cast_pow, zpow_ofNat]
  norm_num only [Int.cast_sub, Int.cast_pow, Int.cast_ofNat, Int.cast_one]

theorem largest_lt_limit : (largest : ℚ) < limit := by
  have top : (2 : ℚ) ^ (1024 : Int) = 2 ^ 53 * 2 ^ (971 : Int) := by
    rw [← zpow_natCast, ← zpow_add₀ (by norm_num)]
    rfl
  have gap : (2 : ℚ) ^ (970 : Int) < 2 ^ (971 : Int) := zpow_lt_zpow_right₀ (by norm_num) (by norm_num)
  rw [largest_eq, limit, top, sub_mul, one_mul]
  exact sub_lt_sub_left gap _

theorem abs_toRat_le_largest (hx : x.isFinite = true) : |x.toRat| ≤ largest := by
  obtain ⟨s, m, e, canonical, rfl⟩ := exists_eq_finite hx
  have mant : (m : ℚ) ≤ 2 ^ 53 - 1 := by
    rw [le_sub_iff_add_le]
    exact_mod_cast canonical.1
  rw [abs_toRat, largest_eq]
  gcongr
  · norm_num
  · exact canonical.2.2.1

theorem roundAway_intCast (k : Int) : roundAway k = k := by
  have near := abs_lt.1 ((abs_roundAway_sub_le (k : ℚ)).trans_lt (by norm_num : (1 / 2 : ℚ) < 1))
  have low : (k : ℚ) - 1 < roundAway k := by linarith
  have high : (roundAway k : ℚ) < k + 1 := by linarith
  have low' : k - 1 < roundAway k := by exact_mod_cast low
  have high' : roundAway k < k + 1 := by exact_mod_cast high
  omega

theorem isFinite_round (hx : x.isFinite = true) : x.round.isFinite = true := by
  rw [(roundsTo_round hx).isFinite_iff]
  refine lt_of_le_of_lt ?_ largest_lt_limit
  obtain ⟨low, high⟩ := abs_le.1 (abs_toRat_le_largest hx)
  have below := roundAway_mono low
  have above := roundAway_mono high
  rw [← Int.cast_neg, roundAway_intCast] at below
  rw [roundAway_intCast] at above
  rw [← Int.cast_abs, Int.cast_le]
  exact abs_le.2 ⟨below, above⟩

end SettingsSweep.Binary64

import SettingsSweep.Axis.Expression
import SettingsSweep.Proofs.Number.Exact

/-!
Which integers are left alone by rounding to ten decimal places. The integer is multiplied by `10^10`, and
where that product needs more than 53 bits the quotient can be another number than the integer.
-/

set_option autoImplicit false

namespace SettingsSweep.Expansion

open Binary64

theorem log2_lt_of_lt_two_pow {n k : Nat} (pos : 0 < k) (lt : n < 2 ^ k) : n.log2 < k := by
  rcases Nat.eq_zero_or_pos n with rfl | npos
  · simpa using pos
  · exact (Nat.log2_lt npos.ne').2 lt

/-- What the rounded product loses is less than `10^10` half units of the integer. -/
def Kept (n : Nat) : Prop :=
  ((nearest (n * 10 ^ 10) : Int) - (n * 10 ^ 10 : Nat)).natAbs * 2 ^ (53 - n.log2) < 10 ^ 10

instance (n : Nat) : Decidable (Kept n) := inferInstanceAs (Decidable (_ < _))

theorem kept_of_dvd {n : Nat} (h : 2 ^ ((n * 10 ^ 10).log2 - 52) ∣ n * 10 ^ 10) : Kept n := by
  rw [Kept, nearest_of_dvd h, Int.sub_self, Int.natAbs_zero, Nat.zero_mul]
  exact Nat.pow_pos (by decide)

theorem kept_of_le {n : Nat} (h : n ≤ 922337204) : Kept n := by
  rcases Nat.eq_or_lt_of_le h with rfl | lt
  · decide
  · -- The product is below `2^63`, so its unit is at most `2^10`, a factor of `10^10`.
    have short : (n * 10 ^ 10).log2 < 63 := log2_lt_of_lt_two_pow (by decide) (by omega)
    have unit : 2 ^ ((n * 10 ^ 10).log2 - 52) ∣ 2 ^ 10 := Nat.pow_dvd_pow 2 (by omega)
    exact kept_of_dvd (unit.trans (Dvd.dvd.mul_left (by decide) n))

example : ¬ Kept 922337205 := by decide

theorem error_mul_ne {n : Nat} (lt : n < 2 ^ 53) :
    ((nearest (n * 10 ^ 10) : Int) - (n * 10 ^ 10 : Nat)).natAbs * 2 ^ (53 - n.log2) ≠ 10 ^ 10 := by
  generalize hA : n * 10 ^ 10 = A
  have tens : 2 ^ 10 ∣ A := hA ▸ Dvd.dvd.mul_left (by decide) n
  rcases Nat.lt_or_ge (A.log2 - 52) 10 with small | large
  · rw [nearest_of_dvd ((Nat.pow_dvd_pow 2 small.le).trans tens), Int.sub_self, Int.natAbs_zero,
      Nat.zero_mul]
    decide
  · -- The error is a multiple of `2^10`, and `10^10` has no more than ten twos.
    have near : 2 ^ 10 ∣ nearest A := Dvd.dvd.mul_left (Nat.pow_dvd_pow 2 large) _
    have error : 2 ^ 10 ∣ ((nearest A : Int) - A).natAbs :=
      Int.natCast_dvd.1 (Int.dvd_sub (Int.natCast_dvd_natCast.2 near)
        (Int.natCast_dvd_natCast.2 tens))
    have short : n.log2 < 53 := log2_lt_of_lt_two_pow (by decide) lt
    have half : 2 ^ 1 ∣ 2 ^ (53 - n.log2) := Nat.pow_dvd_pow 2 (by omega)
    intro eq
    have double : 2 ^ 10 * 2 ^ 1 ∣ 10 ^ 10 := eq ▸ Nat.mul_dvd_mul error half
    exact absurd double (by decide)

theorem natAbs_error (n near : Nat) {ten : Nat} (pos : 0 < ten) (places : Nat) :
    ((((near : Int) - (n * ten : Nat)).natAbs * 2 ^ places : Nat) : ℚ) =
      |(n : ℚ) - near / ten| * 2 ^ places * ten := by
  have tpos : (0 : ℚ) < ten := by exact_mod_cast pos
  have error : (n : ℚ) - near / ten = -(((near : ℚ) - n * ten) / ten) := by
    field_simp
    ring
  have size : |(n : ℚ) - near / ten| * ten = |(near : ℚ) - n * ten| := by
    rw [error, abs_neg, abs_div, abs_of_pos tpos, div_mul_cancel₀ _ tpos.ne']
  rw [mul_right_comm, size, Nat.cast_mul, Nat.cast_natAbs]
  push_cast
  rfl

theorem half_unit {n : Nat} (lt : n < 2 ^ 53) :
    (2 : ℚ) ^ ((n.log2 : Int) - 52) / 2 = (2 ^ (53 - n.log2))⁻¹ := by
  have short : n.log2 < 53 := log2_lt_of_lt_two_pow (by decide) lt
  rw [← zpow_natCast, ← zpow_neg, show -((53 - n.log2 : Nat) : Int) = n.log2 - 52 - 1 by omega,
    zpow_sub_one₀ (by norm_num), div_eq_mul_inv]

theorem kept_iff {n : Nat} (lt : n < 2 ^ 53) : Kept n ↔
    |(n : ℚ) - (nearest (n * 10 ^ 10) : ℚ) / (10 ^ 10 : Nat)| < 2 ^ ((n.log2 : Int) - 52) / 2 := by
  unfold Kept
  have ten : 0 < 10 ^ 10 := Nat.pow_pos (by decide)
  generalize 10 ^ 10 = T at ten
  have tpos : (0 : ℚ) < T := by exact_mod_cast ten
  have scale : (0 : ℚ) < 2 ^ (53 - n.log2) := by positivity
  rw [half_unit lt, ← one_div, lt_div_iff₀ scale, ← mul_lt_mul_iff_left₀ tpos,
    ← natAbs_error n _ ten, one_mul, Nat.cast_lt]

/-- No quotient is exactly half a unit away. -/
theorem kept_of_le_half {n : Nat} (lt : n < 2 ^ 53)
    (le : |(n : ℚ) - (nearest (n * 10 ^ 10) : ℚ) / (10 ^ 10 : Nat)| ≤
      2 ^ ((n.log2 : Int) - 52) / 2) : Kept n := by
  refine (kept_iff lt).2 (lt_of_le_of_ne le fun eq => error_mul_ne lt ?_)
  have ten : 0 < 10 ^ 10 := Nat.pow_pos (by decide)
  generalize 10 ^ 10 = T at ten eq
  have scale : (2 ^ (53 - n.log2) : ℚ) ≠ 0 := by positivity
  have error := natAbs_error n (nearest (n * T)) ten (53 - n.log2)
  rw [eq, half_unit lt, inv_mul_cancel₀ scale, one_mul] at error
  exact_mod_cast error

theorem pow_log2_le_of_kept {n : Nat} (pos : 0 < n) (lt : n < 2 ^ 53) (h : Kept n) :
    (2 : ℚ) ^ n.log2 ≤ (nearest (n * 10 ^ 10) : ℚ) / (10 ^ 10 : Nat) := by
  rcases Nat.eq_or_lt_of_le (Nat.log2_self_le pos.ne') with eq | above
  · -- The product of a power of two is exact.
    have short : (n * 10 ^ 10).log2 < n.log2 + 34 := by
      refine (Nat.log2_lt (by omega)).2 ?_
      rw [Nat.pow_add, eq]
      exact Nat.mul_lt_mul_of_pos_left (by decide) pos
    have power : 2 ^ ((n * 10 ^ 10).log2 - 52) ∣ n :=
      (Nat.pow_dvd_pow 2 (by omega)).trans (dvd_of_eq eq)
    have tens : ((10 ^ 10 : Nat) : ℚ) ≠ 0 := by norm_num
    rw [nearest_of_dvd (power.mul_right _), Nat.cast_mul, mul_div_cancel_right₀ _ tens]
    exact_mod_cast eq.le
  · have near := (abs_lt.1 ((kept_iff lt).1 h)).2
    have half : (2 : ℚ) ^ ((n.log2 : Int) - 52) / 2 ≤ 1 := by
      rw [half_unit lt]
      exact inv_le_one_of_one_le₀ (one_le_pow₀ (by norm_num))
    have above' : (2 : ℚ) ^ n.log2 + 1 ≤ n := by exact_mod_cast above
    linarith

theorem tenPlaces_eq (x : Binary64) : tenPlaces x =
    if ((x * tenBillion).round / tenBillion).isZero = true then .zero false
    else (x * tenBillion).round / tenBillion := rfl

theorem scaled_and_back {k : Int} {ten : Nat} (nonzero : k ≠ 0) (hk : k.natAbs < 2 ^ 53)
    (pos : 0 < ten) (lt : ten < 2 ^ 53) :
    (ofInt k * ofNat ten).round / ofNat ten =
      ofRatio (decide (k < 0)) (nearest (k.natAbs * ten)) ten := by
  have kpos : 0 < k.natAbs := Int.natAbs_pos.2 nonzero
  have product : 0 < k.natAbs * ten := Nat.mul_pos kpos pos
  have size : k.natAbs * ten < 2 ^ 200 := by
    calc
      k.natAbs * ten < 2 ^ 53 * 2 ^ 53 := Nat.mul_lt_mul'' hk lt
      _ ≤ 2 ^ 200 := by norm_num
  unfold ofInt
  generalize decide (k < 0) = s
  obtain ⟨m, canonical, eq, value⟩ := ofRatio_natural kpos hk s
  obtain ⟨t, f, ct, eqt, valt⟩ := exists_ofNat_eq lt
  obtain ⟨r, g, cr, eqr, valr⟩ := ofRatio_nearest product size s
  have tnonzero : t ≠ 0 := mantissa_ne_zero pos valt
  have product' : (m : ℚ) * 2 ^ ((k.natAbs.log2 : Int) - 52) * (t * 2 ^ f) =
      (k.natAbs * ten : Nat) / (1 : Nat) := by
    rw [value, valt, Nat.cast_mul, Nat.cast_one, div_one]
  have times : ofRatio s k.natAbs 1 * ofNat ten = finite s r g cr := by
    rw [eq, eqt, mul_eq Nat.one_pos product', Bool.bne_false, eqr]
  have whole : (finite s r g cr).round = finite s r g cr := by
    refine (round_eq valr).trans (ofRatio_self (nearest_pos product) Nat.one_pos cr ?_ s)
    rw [valr, Nat.cast_one, div_one]
  have quotient : (r : ℚ) * 2 ^ g / (t * 2 ^ f) = (nearest (k.natAbs * ten) : ℚ) / ten := by
    rw [valr, valt]
  rw [times, whole, eqt, div_eq tnonzero pos quotient, Bool.bne_false]

theorem tenPlaces_ofInt_eq_iff {k : Int} (hk : k.natAbs < 2 ^ 53) :
    tenPlaces (ofInt k) = ofInt k ↔ Kept k.natAbs := by
  by_cases zero : k = 0
  · subst zero
    decide +kernel
  · have kpos : 0 < k.natAbs := Int.natAbs_pos.2 zero
    have tens : 0 < 10 ^ 10 := Nat.pow_pos (by decide)
    have ratio : (ofInt k * tenBillion).round / tenBillion =
        ofRatio (decide (k < 0)) (nearest (k.natAbs * 10 ^ 10)) (10 ^ 10) :=
      scaled_and_back zero hk tens (by decide)
    have near : 0 < nearest (k.natAbs * 10 ^ 10) := nearest_pos (Nat.mul_pos kpos tens)
    obtain ⟨m, canonical, eq, value⟩ := ofRatio_natural kpos hk (decide (k < 0))
    have same : ofInt k = finite _ m _ canonical := eq
    rw [tenPlaces_eq, ratio]
    constructor
    · intro h
      split at h
      · -- The result would be zero, and `k` is not.
        exact absurd (ofInt_inj hk (by decide) (h.symm.trans rfl : ofInt k = ofInt 0)) zero
      · have error := abs_sub_le_of_ofRatio_eq near tens (h.trans same)
        rw [value] at error
        exact kept_of_le_half hk error
    · intro kept
      have low : (2 : ℚ) ^ ((k.natAbs.log2 : Int) - 52 + 52) ≤
          (nearest (k.natAbs * 10 ^ 10) : ℚ) / (10 ^ 10 : Nat) := by
        rw [sub_add_cancel, zpow_natCast]
        exact pow_log2_le_of_kept kpos hk kept
      have error := (kept_iff hk).1 kept
      rw [← value] at error
      have back : ofRatio (decide (k < 0)) (nearest (k.natAbs * 10 ^ 10)) (10 ^ 10) = ofInt k :=
        (ofRatio_of_near near tens canonical (.inr low) error _).trans same.symm
      have nonzero : m ≠ 0 := mantissa_ne_zero kpos value
      have visible : (ofInt k).isZero = false := by
        rw [same]
        exact beq_false_of_ne nonzero
      rw [back, visible, if_neg Bool.false_ne_true]

end SettingsSweep.Expansion

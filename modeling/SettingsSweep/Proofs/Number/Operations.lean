import SettingsSweep.Proofs.Number.Order
import Mathlib.Data.Rat.Floor

/-!
Operations as roundings of their true results. Each keeps the order of its argument where the true result does, and
infinite arguments stay infinite.
-/

set_option autoImplicit false

namespace SettingsSweep.Binary64

variable {x y : Binary64}

theorem signedRatio_self (q : ℚ) : signedRatio (decide (q < 0)) q.num.natAbs q.den = q := by
  unfold signedRatio
  rw [natAbs_num_div_den]
  by_cases negative : q < 0
  · rw [if_pos (decide_eq_true negative), abs_of_neg negative]
    ring
  · rw [if_neg (by simpa using negative), abs_of_nonneg (not_lt.1 negative), one_mul]

theorem natAbs_num_pos {q : ℚ} (h : q ≠ 0) : 0 < q.num.natAbs := Int.natAbs_pos.2 (Rat.num_ne_zero.2 h)

theorem roundsTo_add (hx : x.isFinite = true) (hy : y.isFinite = true) :
    RoundsTo (x.toRat + y.toRat) (x + y) := by
  by_cases zero : x.toRat + y.toRat = 0
  · rw [zero]
    exact roundsTo_zero (isZero_add hx hy zero)
  · have split := (signedRatio_self (x.toRat + y.toRat)).symm
    rw [add_eq hx hy (natAbs_num_pos zero) (Rat.den_pos _) split]
    exact roundsTo_ofRatio (natAbs_num_pos zero) (Rat.den_pos _) split

theorem roundsTo_sub (hx : x.isFinite = true) (hy : y.isFinite = true) :
    RoundsTo (x.toRat - y.toRat) (x - y) := by
  have sum := roundsTo_add hx (isFinite_neg hy)
  rw [toRat_neg, ← sub_eq_add_neg] at sum
  exact sum

theorem abs_toRat (s : Bool) {m : Nat} {e : Int} (canonical : Canonical m e) :
    |(finite s m e canonical).toRat| = m * 2 ^ e := by
  have nonneg : (0 : ℚ) ≤ m * 2 ^ e := by positivity
  cases s <;> simp [toRat, abs_of_nonneg nonneg]

theorem eq_signedRatio {q : ℚ} {s : Bool} (sign : q = (if s then -1 else 1) * |q|) :
    q = signedRatio s q.num.natAbs q.den := by
  rw [signedRatio, natAbs_num_div_den]
  exact sign

/-- A result that is the ratio of every fraction of its magnitude, with its sign, rounds the true result. -/
theorem roundsTo_of_eq_ofRatio {q : ℚ} {s : Bool} (sign : q = (if s then -1 else 1) * |q|)
    (eq : ∀ num den : Nat, 0 < den → |q| = num / den → x = ofRatio s num den) : RoundsTo q x := by
  rw [eq _ _ q.den_pos (natAbs_num_div_den q).symm]
  by_cases zero : q = 0
  · rw [zero, Rat.num_zero, Int.natAbs_zero, ofRatio_zero]
    exact roundsTo_zero rfl
  · exact roundsTo_ofRatio (natAbs_num_pos zero) q.den_pos (eq_signedRatio sign)

theorem roundsTo_mul (hx : x.isFinite = true) (hy : y.isFinite = true) :
    RoundsTo (x.toRat * y.toRat) (x * y) := by
  obtain ⟨s, m, e, hm, rfl⟩ := exists_eq_finite hx
  obtain ⟨t, n, f, hn, rfl⟩ := exists_eq_finite hy
  generalize hq : (finite s m e hm).toRat * (finite t n f hn).toRat = q
  have size : |q| = m * 2 ^ e * (n * 2 ^ f) := by rw [← hq, abs_mul, abs_toRat, abs_toRat]
  have sign : q = (if s != t then -1 else 1) * |q| := by
    rw [size, ← hq, toRat, toRat]
    cases s <;> cases t <;> simp
  exact roundsTo_of_eq_ofRatio sign fun num den hd value => mul_eq hd (size.symm.trans value)

theorem roundsTo_div (hx : x.isFinite = true) (hy : y.isFinite = true) (nonzero : y.toRat ≠ 0) :
    RoundsTo (x.toRat / y.toRat) (x / y) := by
  obtain ⟨s, m, e, hm, rfl⟩ := exists_eq_finite hx
  obtain ⟨t, n, f, hn, rfl⟩ := exists_eq_finite hy
  have divisor : n ≠ 0 := by
    rintro rfl
    simp [toRat] at nonzero
  generalize hq : (finite s m e hm).toRat / (finite t n f hn).toRat = q
  have size : |q| = m * 2 ^ e / (n * 2 ^ f) := by rw [← hq, abs_div, abs_toRat, abs_toRat]
  have sign : q = (if s != t then -1 else 1) * |q| := by
    rw [size, ← hq, toRat, toRat]
    cases s <;> cases t <;> simp [neg_div, div_neg]
  exact roundsTo_of_eq_ofRatio sign fun num den hd value => div_eq divisor hd (size.symm.trans value)

theorem roundsTo_ofInt (k : Int) : RoundsTo k (ofInt k) := by
  by_cases zero : k = 0
  · subst zero
    exact roundsTo_zero rfl
  · exact roundsTo_ofRatio (Int.natAbs_pos.2 zero) Nat.one_pos (signedRatio_natAbs k).symm

theorem roundsTo_ofNat (n : Nat) : RoundsTo n (ofNat n) := by
  rw [← ofInt_natCast]
  exact_mod_cast roundsTo_ofInt n

theorem roundsTo_self (hx : x.isFinite = true) : RoundsTo x.toRat x := by
  obtain ⟨s, m, e, canonical, rfl⟩ := exists_eq_finite hx
  generalize hq : (finite s m e canonical).toRat = q
  have size : |q| = m * 2 ^ e := by rw [← hq, abs_toRat]
  have sign : q = (if s then -1 else 1) * |q| := by rw [size, ← hq, toRat]
  by_cases zero : q = 0
  · have none : m = 0 := by
      rw [zero, abs_zero] at size
      have power : (2 : ℚ) ^ e ≠ 0 := by positivity
      exact_mod_cast (mul_eq_zero.1 size.symm).resolve_right power
    subst none
    rw [zero]
    exact roundsTo_zero rfl
  · rw [← ofRatio_self (natAbs_num_pos zero) q.den_pos canonical (size.symm.trans (natAbs_num_div_den q).symm) s]
    exact roundsTo_ofRatio (natAbs_num_pos zero) q.den_pos (eq_signedRatio sign)

theorem RoundsTo.toRat_nonneg {q : ℚ} (h : RoundsTo q x) (nonneg : 0 ≤ q) : 0 ≤ x.toRat := by
  rcases h with ⟨-, value, -⟩ | ⟨rfl, -⟩
  · rw [value, nearestTo, if_neg (not_lt.2 nonneg)]
    exact unbounded_nonneg _ _
  · exact le_rfl

/-- A magnitude far below that of the largest number: products of it and small constants are no overflow. -/
@[irreducible] def moderate : ℚ := 2 ^ (900 : Int)

theorem million_le_moderate : 10 ^ 6 ≤ moderate := by
  rw [moderate]
  calc
    (10 : ℚ) ^ 6 ≤ 2 ^ (20 : Int) := by norm_num
    _ ≤ 2 ^ (900 : Int) := zpow_le_zpow_right₀ (by norm_num) (by norm_num)

theorem one_le_moderate : 1 ≤ moderate := le_trans (by norm_num) million_le_moderate

theorem RoundsTo.close {q : ℚ} (h : RoundsTo q x) (finite : x.isFinite = true) :
    |x.toRat - q| ≤ |q| / 2 ^ 53 + 1 / 10 ^ 30 := by
  have least : (2 : ℚ) ^ (-1075 : Int) ≤ 1 / 10 ^ 30 := by
    calc
      (2 : ℚ) ^ (-1075 : Int) ≤ 2 ^ (-100 : Int) := zpow_le_zpow_right₀ (by norm_num) (by norm_num)
      _ ≤ 1 / 10 ^ 30 := by norm_num
  refine (h.abs_sub_le finite).trans ?_
  gcongr

/-- Far from the largest number a rational is rounded to a finite number close to it. -/
theorem RoundsTo.near {q : ℚ} (h : RoundsTo q x) (small : |q| ≤ 10 ^ 30 * moderate) :
    x.isFinite = true ∧ |x.toRat - q| ≤ |q| / 2 ^ 53 + 1 / 10 ^ 30 := by
  have top : (2 : ℚ) ^ (1022 : Int) = 2 ^ (122 : Int) * moderate := by
    rw [show (1022 : Int) = 122 + 900 by norm_num, zpow_add₀ (by norm_num), moderate]
  have finite : x.isFinite = true := by
    refine h.isFinite (small.trans ?_)
    rw [top]
    exact mul_le_mul_of_nonneg_right (by norm_num) (zero_le_one.trans one_le_moderate)
  exact ⟨finite, h.close finite⟩

def roundAway (q : ℚ) : Int := if q < 0 then -⌊-q + 1 / 2⌋ else ⌊q + 1 / 2⌋

theorem roundAway_of_nonneg {q : ℚ} (h : 0 ≤ q) : roundAway q = ⌊q + 1 / 2⌋ := if_neg (not_lt.2 h)

theorem roundAway_neg {q : ℚ} (h : 0 ≤ q) : roundAway (-q) = -⌊q + 1 / 2⌋ := by
  rcases h.eq_or_lt with rfl | pos
  · norm_num [roundAway]
  · rw [roundAway, if_pos (neg_neg_of_pos pos), neg_neg]

theorem roundAway_mono {p q : ℚ} (h : p ≤ q) : roundAway p ≤ roundAway q := by
  have up : ∀ r : ℚ, 0 ≤ r → 0 ≤ ⌊r + 1 / 2⌋ := fun r hr => Int.floor_nonneg.2 (by linarith)
  unfold roundAway
  split
  · next negative =>
    have below := up (-p) (by linarith)
    split
    · exact neg_le_neg (Int.floor_le_floor (by linarith))
    · next nonneg =>
      have above := up q (not_lt.1 nonneg)
      omega
  · next nonneg =>
    rw [if_neg (by linarith)]
    exact Int.floor_le_floor (by linarith)

theorem abs_roundAway_sub_le (q : ℚ) : |(roundAway q : ℚ) - q| ≤ 1 / 2 := by
  unfold roundAway
  rw [abs_le]
  split
  · have low := Int.floor_le (-q + 1 / 2)
    have high := Int.lt_floor_add_one (-q + 1 / 2)
    push_cast
    constructor <;> linarith
  · have low := Int.floor_le (q + 1 / 2)
    have high := Int.lt_floor_add_one (q + 1 / 2)
    constructor <;> linarith

theorem floor_whole {m whole rest one : Nat} {e : Int} (lt : rest < one)
    (value : (m : ℚ) * 2 ^ e = whole + rest / one) :
    ⌊(m : ℚ) * 2 ^ e + 1 / 2⌋ = ((if 2 * rest ≥ one then whole + 1 else whole : Nat) : Int) := by
  have pos : (0 : ℚ) < one := by exact_mod_cast Nat.zero_lt_of_lt lt
  have top : (rest : ℚ) / one < 1 := by
    rw [div_lt_one pos]
    exact_mod_cast lt
  have bottom : (0 : ℚ) ≤ rest / one := by positivity
  rw [value, Int.floor_eq_iff]
  split
  · next half =>
    have half' : (1 / 2 : ℚ) ≤ rest / one := by
      rw [le_div_iff₀ pos]
      have : (one : ℚ) ≤ 2 * rest := by exact_mod_cast half
      linarith
    push_cast
    constructor <;> linarith
  · next half =>
    have half' : (rest : ℚ) / one < 1 / 2 := by
      rw [div_lt_iff₀ pos]
      have : (2 : ℚ) * rest < one := by exact_mod_cast not_le.1 half
      linarith
    push_cast
    constructor <;> linarith

theorem roundsTo_round (hx : x.isFinite = true) : RoundsTo (roundAway x.toRat) x.round := by
  obtain ⟨s, m, e, canonical, rfl⟩ := exists_eq_finite hx
  obtain ⟨whole, rest, one, eq, lt, value⟩ := wholePart_spec m e
  have nearest := floor_whole lt value
  have rounded : (finite s m e canonical).round =
      ofRatio s (if 2 * rest ≥ one then whole + 1 else whole) 1 := by
    simp only [round, eq]
  rw [rounded]
  generalize (if 2 * rest ≥ one then whole + 1 else whole) = k at nearest
  have nonneg : (0 : ℚ) ≤ m * 2 ^ e := by positivity
  have shown : (finite s m e canonical).toRat = (if s then -1 else 1) * (m * 2 ^ e) := rfl
  rw [shown]
  generalize (m : ℚ) * 2 ^ e = v at nonneg nearest
  have away : (roundAway ((if s then -1 else 1) * v) : ℚ) = signedRatio s k 1 := by
    cases s with
    | false =>
      rw [if_neg Bool.false_ne_true, one_mul, roundAway_of_nonneg nonneg, nearest]
      simp [signedRatio]
    | true =>
      rw [if_pos rfl, neg_one_mul, roundAway_neg nonneg, nearest]
      simp [signedRatio]
  rw [away]
  rcases Nat.eq_zero_or_pos k with rfl | pos
  · have zero : signedRatio s 0 1 = 0 := by simp [signedRatio]
    rw [zero, ofRatio_zero]
    exact roundsTo_zero rfl
  · exact roundsTo_ofRatio pos Nat.one_pos rfl

theorem isFinite_of_floor {x : Binary64} (h : x.floor.isFinite = true) : x.isFinite = true := by
  cases x with
  | finite s m e canonical => rfl
  | infinite s => exact h
  | nan => exact h

theorem isFinite_of_add {x y : Binary64} (h : (x + y).isFinite = true) : x.isFinite = true := by
  cases x with
  | finite s m e canonical => rfl
  | infinite s => cases y with
    | finite t n f hn => exact h
    | infinite t =>
      change (if s = t then Binary64.infinite s else .nan).isFinite = true at h
      split at h <;> cases h
    | nan => exact h
  | nan => cases y <;> exact h

theorem isFinite_of_div {x y : Binary64} (hy : y.isFinite = true) (h : (x / y).isFinite = true) :
    x.isFinite = true := by
  obtain ⟨t, n, f, hn, rfl⟩ := exists_eq_finite hy
  cases x with
  | finite s m e canonical => rfl
  | infinite s => exact h
  | nan => exact h

theorem toRat_ne_zero {x : Binary64} (hx : x.isFinite = true) (h : x.isZero = false) : x.toRat ≠ 0 := by
  obtain ⟨s, m, e, canonical, rfl⟩ := exists_eq_finite hx
  have mant : (m : ℚ) ≠ 0 := by
    have : m ≠ 0 := by simpa [isZero] using h
    exact_mod_cast this
  have power : (2 : ℚ) ^ e ≠ 0 := by positivity
  cases s <;> simp [toRat, mant, power]

theorem same_side_of_signum {x y : Binary64} (hx : x.isFinite = true) (hy : y.isFinite = true)
    (h : x.signum.same y.signum = true) : 0 ≤ x.toRat ∧ 0 ≤ y.toRat ∨ x.toRat ≤ 0 ∧ y.toRat ≤ 0 := by
  obtain ⟨s, m, e, hm, rfl⟩ := exists_eq_finite hx
  obtain ⟨t, n, f, hn, rfl⟩ := exists_eq_finite hy
  have px : (0 : ℚ) ≤ m * 2 ^ e := by positivity
  have py : (0 : ℚ) ≤ n * 2 ^ f := by positivity
  have apart : (ofInt 1).same (ofInt (-1)) = false ∧ (ofInt (-1)).same (ofInt 1) = false := by decide +kernel
  have sign : s = t := by
    cases s <;> cases t <;> simp_all [signum]
  subst sign
  cases s with
  | false => exact .inl ⟨by simpa [toRat] using px, by simpa [toRat] using py⟩
  | true => exact .inr ⟨by simpa [toRat] using px, by simpa [toRat] using py⟩

theorem le_ne_nan (h : x.le y = true) : x ≠ .nan ∧ y ≠ .nan := by
  constructor
  · rintro rfl
    cases h
  · rintro rfl
    cases x <;> cases h

/-- A rounded monotone function keeps the order, also at infinite numbers that it leaves alone. -/
theorem le_of_monotone {f : Binary64 → Binary64} {g : ℚ → ℚ} (mono : Monotone g)
    (infinite : ∀ s, f (.infinite s) = .infinite s)
    (rounds : ∀ x : Binary64, x.isFinite = true → RoundsTo (g x.toRat) (f x)) (h : x.le y = true) :
    (f x).le (f y) = true := by
  have ne_nan : ∀ z : Binary64, z ≠ .nan → f z ≠ .nan := by
    intro z hz
    cases z with
    | finite s m e canonical => exact (rounds _ rfl).ne_nan
    | infinite s => simp [infinite s]
    | nan => exact absurd rfl hz
  obtain ⟨hx, hy⟩ := le_ne_nan h
  by_cases fx : x.isFinite = true
  · by_cases fy : y.isFinite = true
    · exact le_of_roundsTo (rounds x fx) (rounds y fy) (mono ((le_iff fx fy).1 h))
    · cases y with
      | finite t n e canonical => exact absurd rfl fy
      | infinite t =>
        obtain ⟨s, m, e, canonical, rfl⟩ := exists_eq_finite fx
        obtain rfl : t = false := by cases t <;> simp [le, compare?] at h ⊢
        rw [infinite]
        exact le_infinite (ne_nan _ hx)
      | nan => exact absurd rfl hy
  · cases x with
    | finite s m e canonical => exact absurd rfl fx
    | infinite s =>
      cases s with
      | true =>
        rw [infinite]
        exact infinite_le (ne_nan _ hy)
      | false =>
        obtain rfl : y = .infinite false := by
          cases y with
          | finite t n e canonical => simp [le, compare?] at h
          | infinite t => cases t <;> simp [le, compare?] at h ⊢
          | nan => exact absurd rfl hy
        rw [infinite]
        rfl
    | nan => exact absurd rfl hx

end SettingsSweep.Binary64

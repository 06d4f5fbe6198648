import SettingsSweep.Number.Binary64
import Mathlib.Algebra.Order.Field.Power
import Mathlib.Data.Rat.Cast.Order
import Mathlib.Tactic.Linarith
import Mathlib.Tactic.NormNum
import Mathlib.Tactic.Positivity
import Mathlib.Tactic.Ring

/-!
The rational that a finite number stands for. A canonical form is determined by its value, so numbers that
compare equal are one number, or two zeros.
-/

set_option autoImplicit false

namespace SettingsSweep

namespace Canonical

theorem eq_of_scaled_eq {m n : Nat} {e f : Int} (hm : Canonical m e) (hn : Canonical n f)
    (le : e ≤ f) (h : m = n * 2 ^ (f - e).toNat) : m = n ∧ e = f := by
  rcases eq_or_lt_of_le le with rfl | lt
  · simpa using h
  · obtain ⟨hm, he, -, -⟩ := hm
    obtain ⟨-, -, -, hn⟩ := hn
    have normal : Nat.pow 2 52 ≤ n := hn.resolve_right (by omega)
    have double : 2 ^ 1 ≤ 2 ^ (f - e).toNat := Nat.pow_le_pow_right (by decide) (by omega)
    have big : Nat.pow 2 52 * 2 ^ 1 ≤ m := h ▸ Nat.mul_le_mul normal double
    exact absurd hm (Nat.not_lt.2 big)

theorem eq_of_value_eq {m n : Nat} {e f : Int} (hm : Canonical m e) (hn : Canonical n f)
    (h : (m : ℚ) * 2 ^ e = n * 2 ^ f) : m = n ∧ e = f := by
  have scaled : ∀ {m n : Nat} {e f : Int}, e ≤ f → (m : ℚ) * 2 ^ e = n * 2 ^ f →
      m = n * 2 ^ (f - e).toNat := by
    intro m n e f le h
    have split : (2 : ℚ) ^ f = 2 ^ (f - e).toNat * 2 ^ e := by
      rw [← zpow_natCast, ← zpow_add₀ (by norm_num)]
      congr 1
      omega
    have pos : (2 : ℚ) ^ e ≠ 0 := by positivity
    rw [split, ← mul_assoc] at h
    exact_mod_cast mul_right_cancel₀ pos h
  rcases le_total e f with le | le
  · exact hm.eq_of_scaled_eq hn le (scaled le h)
  · obtain ⟨rfl, rfl⟩ := hn.eq_of_scaled_eq hm le (scaled le h.symm)
    exact ⟨rfl, rfl⟩

end Canonical

namespace Binary64

theorem two_zpow_of_neg {e : Int} (neg : e < 0) : (2 : ℚ) ^ e = ((2 ^ e.natAbs : Nat) : ℚ)⁻¹ := by
  rw [Nat.cast_pow, Nat.cast_ofNat, ← zpow_natCast, ← zpow_neg]
  congr 1
  omega

theorem two_zpow_of_nonneg {e : Int} (nonneg : 0 ≤ e) : (2 : ℚ) ^ e = (2 ^ e.natAbs : Nat) := by
  rw [Nat.cast_pow, Nat.cast_ofNat, ← zpow_natCast]
  congr 1
  omega

theorem exists_eq_finite {x : Binary64} (h : x.isFinite = true) :
    ∃ s m e canonical, x = finite s m e canonical := by
  cases x with
  | finite s m e canonical => exact ⟨s, m, e, canonical, rfl⟩
  | infinite s => cases h
  | nan => cases h

/-- The value of a finite number; any other number counts as zero. -/
def toRat : Binary64 → ℚ
  | .finite s m e _ => (if s then -1 else 1) * (m * 2 ^ e)
  | _ => 0

theorem toRat_inj {x y : Binary64} (hx : x.isFinite = true) (hy : y.isFinite = true)
    (h : x.toRat = y.toRat) : x = y ∨ x.isZero = true ∧ y.isZero = true := by
  obtain ⟨s, m, e, hm, rfl⟩ := exists_eq_finite hx
  obtain ⟨t, n, f, hn, rfl⟩ := exists_eq_finite hy
  have pe : (0 : ℚ) < 2 ^ e := by positivity
  have pf : (0 : ℚ) < 2 ^ f := by positivity
  have size : (m : ℚ) * 2 ^ e = n * 2 ^ f := by
    have habs := congrArg (fun q : ℚ => |q|) h
    simp only [toRat, abs_mul] at habs
    cases s <;> cases t <;> simpa [abs_of_pos pe, abs_of_pos pf] using habs
  obtain ⟨rfl, rfl⟩ := hm.eq_of_value_eq hn size
  by_cases hz : m = 0
  · exact .inr ⟨by simp [isZero, hz], by simp [isZero, hz]⟩
  · left
    have pm : (0 : ℚ) < m := by exact_mod_cast Nat.pos_of_ne_zero hz
    have pos := mul_pos pm pe
    cases s <;> cases t
    · rfl
    · simp only [toRat] at h
      norm_num at h
      linarith
    · simp only [toRat] at h
      norm_num at h
      linarith
    · rfl

theorem signedUnits_eq (s : Bool) (m : Nat) {e unit : Int} (hm : Canonical m e) (h : unit ≤ e) :
    (signedUnits s m e unit : ℚ) = (finite s m e hm).toRat * 2 ^ (-unit) := by
  have power : (2 : ℚ) ^ (e - unit).toNat = 2 ^ e * 2 ^ (-unit) := by
    rw [← zpow_natCast, ← zpow_add₀ (by norm_num)]
    congr 1
    omega
  have units : ((m * Nat.pow 2 (e - unit).toNat : Nat) : ℚ) = m * (2 ^ e * 2 ^ (-unit)) := by
    rw [← power, Nat.pow_eq]
    push_cast
    rfl
  unfold signedUnits toRat
  cases s
  · simp only [Bool.false_eq_true, if_false, Int.cast_natCast, units]
    ring
  · simp only [if_true, Int.cast_neg, Int.cast_natCast, units]
    ring

theorem eq_or_isZero_of_same {x y : Binary64} (h : x.same y = true) :
    x = y ∨ x.isZero = true ∧ y.isZero = true := by
  cases x with
  | nan => simp [same, compare?] at h
  | infinite s =>
    cases y with
    | nan => simp [same, compare?] at h
    | finite t n f hn => cases s <;> simp [same, compare?] at h
    | infinite t => cases s <;> cases t <;> simp_all [same, compare?]
  | finite s m e hm =>
    cases y with
    | nan => simp [same, compare?] at h
    | infinite t => cases t <;> simp [same, compare?] at h
    | finite t n f hn =>
      have units : signedUnits s m e (min e f) = signedUnits t n f (min e f) := by
        simpa [same, compare?] using h
      apply toRat_inj rfl rfl
      have hq := congrArg (Int.cast : Int → ℚ) units
      rw [signedUnits_eq s m hm (min_le_left e f), signedUnits_eq t n hn (min_le_right e f)] at hq
      exact mul_right_cancel₀ (by positivity) hq

theorem toRat_of_toInt? {x : Binary64} {i : Int} (h : x.toInt? = some i) : x.toRat = i := by
  cases x with
  | nan => simp [toInt?] at h
  | infinite s => simp [toInt?] at h
  | finite s m e hm =>
    have whole : ∀ w : Nat, (m : ℚ) * 2 ^ e = w →
        (if s then -(w : Int) else w) = i → (finite s m e hm).toRat = i := by
      intro w hw hi
      rw [← hi, toRat, hw]
      cases s <;> simp
    by_cases neg : e < 0
    · simp only [toInt?, wholePart, if_pos neg] at h
      split at h
      · next rest =>
        refine whole (m / Nat.pow 2 e.natAbs) ?_ (Option.some.inj h)
        have exact' : m / Nat.pow 2 e.natAbs * Nat.pow 2 e.natAbs = m :=
          Nat.div_mul_cancel (Nat.dvd_of_mod_eq_zero rest)
        have one : (2 : ℚ) ^ e.natAbs * 2 ^ e = 1 := by
          rw [← zpow_natCast, ← zpow_add₀ (by norm_num), show (e.natAbs : Int) + e = 0 by omega]
          exact zpow_zero _
        calc
          (m : ℚ) * 2 ^ e = (m / Nat.pow 2 e.natAbs : Nat) * 2 ^ e.natAbs * 2 ^ e := by
            congr 1
            exact_mod_cast exact'.symm
          _ = (m / Nat.pow 2 e.natAbs : Nat) := by rw [mul_assoc, one, mul_one]
      · simp at h
    · simp only [toInt?, wholePart, if_neg neg, if_true] at h
      refine whole (m * Nat.pow 2 e.natAbs) ?_ (Option.some.inj h)
      have power : (2 : ℚ) ^ e = 2 ^ e.natAbs := by
        rw [← zpow_natCast]
        congr 1
        omega
      rw [power, Nat.pow_eq]
      push_cast
      rfl

end Binary64

end SettingsSweep

import SettingsSweep.Number.Decimal
import SettingsSweep.Proofs.Number.Order
import Mathlib.Data.List.TakeWhile

/-!
Reading decimals. The number that a decimal is read as is its value, rounded once, however many digits it has. A text
with a character that no decimal has is not read.
-/

set_option autoImplicit false

namespace SettingsSweep

namespace Binary64

theorem unbounded_eq_zero {num den : Nat} (hn : 0 < num) (hd : 0 < den)
    (small : (num : ℚ) / den < 2 ^ (-1075 : Int)) : unbounded num den = 0 := by
  have least : unitExponent num den = -1074 := by
    have unit := hasUnit_unitExponent hn hd
    refine unit.le.resolve_right fun low => ?_
    have := (zpow_lt_zpow_iff_right₀ (by norm_num : (1 : ℚ) < 2)).1 (lt_of_le_of_lt low small)
    have := unit.least
    omega
  have half : ((inUnits num den (-1074)).1 : ℚ) / (inUnits num den (-1074)).2 < 1 / 2 := by
    rw [inUnits_ratio, div_lt_iff₀ (by positivity)]
    refine lt_of_lt_of_eq small ?_
    rw [one_div, ← zpow_neg_one, ← zpow_add₀ (by norm_num)]
    congr 1
  have none : roundHalfEven (inUnits num den (-1074)).1 (inUnits num den (-1074)).2 = 0 := by
    refine roundHalfEven_of_near (inUnits_pos num hd _) ?_
    rwa [Nat.cast_zero, zero_sub, abs_neg, abs_of_nonneg (div_nonneg (Nat.cast_nonneg _) (Nat.cast_nonneg _))]
  rw [unbounded, least, none, Nat.cast_zero, zero_mul]

theorem roundsTo_zero_of_small {q : ℚ} (small : |q| < 2 ^ (-1075 : Int)) (s : Bool) : RoundsTo q (zero s) := by
  by_cases none : q = 0
  · exact none ▸ roundsTo_zero rfl
  · have nothing : magnitude q = 0 :=
      unbounded_eq_zero (Int.natAbs_pos.2 (Rat.num_ne_zero.2 none)) q.den_pos (by rwa [natAbs_num_div_den])
    have value : nearestTo q = 0 := abs_eq_zero.1 ((abs_nearestTo q).trans nothing)
    refine .inl ⟨rfl, ?_, ?_⟩
    · rw [value, zero, toRat, Nat.cast_zero, zero_mul, mul_zero]
    · rw [value, abs_zero]
      positivity

theorem roundsTo_infinite_of_large {q : ℚ} (large : 2 ^ (1025 : Int) ≤ |q|) :
    RoundsTo q (.infinite (decide (q < 0))) := by
  refine .inr ⟨rfl, ?_⟩
  have error := abs_nearestTo_sub_le q
  have near := abs_sub_abs_le_abs_sub q (nearestTo q)
  rw [abs_sub_comm] at near
  have tiny : (2 : ℚ) ^ (-1075 : Int) ≤ 1 := zpow_le_one_of_nonpos₀ (by norm_num) (by norm_num)
  have top : (2 : ℚ) ^ (1025 : Int) = 2 * 2 ^ (1024 : Int) := by
    rw [← zpow_one_add₀ (by norm_num)]
    congr 1
  have big : (2 : ℚ) ^ (2 : Int) ≤ 2 ^ (1024 : Int) := zpow_le_zpow_right₀ (by norm_num) (by norm_num)
  rw [top] at large
  generalize (2 : ℚ) ^ (1024 : Int) = c at large big ⊢
  generalize (2 : ℚ) ^ (-1075 : Int) = t at tiny error
  norm_num at big error
  linarith

end Binary64

namespace Decimal

open Binary64

def toRat (d : Decimal) : ℚ := (if d.negative then -1 else 1) * (d.digits * 10 ^ d.exp)

theorem abs_toRat (d : Decimal) : |d.toRat| = d.digits * 10 ^ d.exp := by
  have pos : (0 : ℚ) ≤ d.digits * 10 ^ d.exp := by positivity
  unfold toRat
  cases d.negative <;> simp [abs_of_nonneg pos]

theorem toRat_neg_iff {d : Decimal} (some : d.digits ≠ 0) : d.toRat < 0 ↔ d.negative = true := by
  have digits : (0 : ℚ) < d.digits := by exact_mod_cast Nat.pos_of_ne_zero some
  have pos : (0 : ℚ) < d.digits * 10 ^ d.exp := by positivity
  unfold toRat
  cases d.negative with
  | false => simpa using pos.le
  | true => simpa using pos

theorem two_zpow_le_ten_zpow (n : Nat) : (2 : ℚ) ^ (3 * n : Int) ≤ 10 ^ (n : Int) := by
  rw [zpow_mul]
  exact zpow_le_zpow_left₀ (Int.natCast_nonneg n) (by norm_num) (by norm_num)

/-- All digits of the number stand more than 400 places behind the point. -/
theorem abs_toRat_lt {d : Decimal} (low : d.exp < -(d.digits.log2 + 400 : Int)) :
    |d.toRat| < 2 ^ (-1075 : Int) := by
  have digits : (d.digits : ℚ) < 2 ^ (d.digits.log2 + 1) := by exact_mod_cast Nat.lt_log2_self
  have tens : (2 : ℚ) ^ (d.digits.log2 + 1) ≤ 10 ^ (d.digits.log2 + 1) := by gcongr; norm_num
  calc
    |d.toRat| = d.digits * 10 ^ d.exp := abs_toRat d
    _ < 10 ^ (d.digits.log2 + 1) * 10 ^ d.exp := by
      gcongr
      exact digits.trans_le tens
    _ = 10 ^ ((d.digits.log2 + 1 : Nat) + d.exp) := by rw [zpow_add₀ (by norm_num), zpow_natCast]
    _ ≤ 10 ^ (-400 : Int) := zpow_le_zpow_right₀ (by norm_num) (by push_cast; omega)
    _ ≤ 2 ^ (-1200 : Int) := by
      rw [zpow_neg, zpow_neg]
      exact inv_anti₀ (by positivity) (two_zpow_le_ten_zpow 400)
    _ ≤ 2 ^ (-1075 : Int) := zpow_le_zpow_right₀ (by norm_num) (by norm_num)

theorem le_abs_toRat {d : Decimal} (some : d.digits ≠ 0) (high : 400 < d.exp) :
    2 ^ (1025 : Int) ≤ |d.toRat| := by
  have digits : (1 : ℚ) ≤ d.digits := by exact_mod_cast Nat.pos_of_ne_zero some
  calc
    (2 : ℚ) ^ (1025 : Int) ≤ 2 ^ (3 * 401 : Int) := zpow_le_zpow_right₀ (by norm_num) (by norm_num)
    _ ≤ 10 ^ (401 : Int) := two_zpow_le_ten_zpow 401
    _ ≤ 10 ^ d.exp := zpow_le_zpow_right₀ (by norm_num) (by omega)
    _ ≤ d.digits * 10 ^ d.exp := le_mul_of_one_le_left (by positivity) digits
    _ = |d.toRat| := (abs_toRat d).symm

/-- Reading rounds once, also where the power of ten is not computed. -/
theorem roundsTo_toBinary64 (d : Decimal) : RoundsTo d.toRat d.toBinary64 := by
  unfold toBinary64
  split
  · next none =>
    have value : d.toRat = 0 := by rw [toRat, none, Nat.cast_zero, zero_mul, mul_zero]
    exact value ▸ roundsTo_zero rfl
  · next some =>
    have sign : decide (d.toRat < 0) = d.negative := by
      rw [Bool.eq_iff_iff, decide_eq_true_iff, toRat_neg_iff some]
    have pos : 0 < d.digits := Nat.pos_of_ne_zero some
    have ten : ∀ n : Nat, 0 < Nat.pow 10 n := fun n => Nat.pow_pos (by decide)
    split
    · next high => exact sign ▸ roundsTo_infinite_of_large (le_abs_toRat some high)
    · split
      · next low => exact roundsTo_zero_of_small (abs_toRat_lt low) _
      · split
        · next below =>
          refine roundsTo_ofRatio pos (ten _) ?_
          have power : (10 : ℚ) ^ d.exp = ((Nat.pow 10 d.exp.natAbs : Nat) : ℚ)⁻¹ := by
            rw [Nat.pow_eq, Nat.cast_pow, Nat.cast_ofNat, ← zpow_natCast, ← zpow_neg]
            congr 1
            omega
          rw [toRat, signedRatio, power, div_eq_mul_inv]
        · next above =>
          refine roundsTo_ofRatio (Nat.mul_pos pos (ten _)) Nat.one_pos ?_
          have power : (10 : ℚ) ^ d.exp = (Nat.pow 10 d.exp.natAbs : Nat) := by
            rw [Nat.pow_eq, Nat.cast_pow, Nat.cast_ofNat, ← zpow_natCast]
            congr 1
            omega
          rw [toRat, signedRatio, power, Nat.cast_one, div_one, Nat.cast_mul]

theorem natOfDigits_append (whole fraction : List Char) :
    natOfDigits (whole ++ fraction) = natOfDigits whole * 10 ^ fraction.length + natOfDigits fraction := by
  unfold natOfDigits
  rw [Nat.ofDigitChars_append, Nat.ofDigitChars_eq_ofDigitChars_zero, Nat.mul_comm]

theorem unsigned?_whole (negative : Bool) {digits : List Char} (some : digits ≠ [])
    (all : digits.all Char.isDigit = true) :
    unsigned? negative digits = .some ⟨negative, natOfDigits digits, 0⟩ := by
  have taken : digits.takeWhile Char.isDigit = digits := List.takeWhile_eq_self_iff.2 (List.all_eq_true.1 all)
  have left : digits.dropWhile Char.isDigit = [] := List.dropWhile_eq_nil_iff.2 (List.all_eq_true.1 all)
  unfold unsigned?
  simp [taken, left, some, exponent?]

theorem unsigned?_pointed (negative : Bool) {whole fraction : List Char} (some : whole ≠ [] ∨ fraction ≠ [])
    (all : whole.all Char.isDigit = true) (all' : fraction.all Char.isDigit = true) :
    unsigned? negative (whole ++ '.' :: fraction) =
      .some ⟨negative, natOfDigits (whole ++ fraction), -fraction.length⟩ := by
  have taken : (whole ++ '.' :: fraction).takeWhile Char.isDigit = whole := by
    rw [List.takeWhile_append_of_pos (List.all_eq_true.1 all), List.takeWhile_cons_of_neg (by decide),
      List.append_nil]
  have left : (whole ++ '.' :: fraction).dropWhile Char.isDigit = '.' :: fraction := by
    rw [List.dropWhile_append_of_pos (List.all_eq_true.1 all), List.dropWhile_cons_of_neg (by decide)]
  have taken' : fraction.takeWhile Char.isDigit = fraction :=
    List.takeWhile_eq_self_iff.2 (List.all_eq_true.1 all')
  have left' : fraction.dropWhile Char.isDigit = [] := List.dropWhile_eq_nil_iff.2 (List.all_eq_true.1 all')
  have visible : ¬ (whole = [] ∧ fraction = []) := fun h => some.elim (· h.1) (· h.2)
  unfold unsigned?
  simp only [taken, left, taken', left', if_neg visible, exponent?, Option.map_some, zero_sub]

theorem negative_of_unsigned? {negative : Bool} {text : List Char} {d : Decimal}
    (h : unsigned? negative text = some d) : d.negative = negative := by
  have sign : ∀ (whole fraction rest : List Char),
      (if whole = [] ∧ fraction = [] then none else (exponent? rest).map fun exp =>
        (⟨negative, natOfDigits (whole ++ fraction), exp - fraction.length⟩ : Decimal)) = some d →
      d.negative = negative := by
    intro whole fraction rest h
    split at h
    · cases h
    · obtain ⟨exp, -, rfl⟩ := Option.map_eq_some_iff.1 h
      rfl
  unfold unsigned? at h
  dsimp only at h
  split at h
  · exact sign _ _ _ h
  · exact sign _ _ _ h

def isPart (c : Char) : Bool := c.isDigit || c ∈ ['.', 'e', 'E', '+', '-']

theorem isPart_of_exponent? {text : List Char} {exp : Int} (h : exponent? text = some exp) :
    ∀ c ∈ text, isPart c = true := by
  unfold exponent? at h
  split at h
  · exact fun c hc => by cases hc
  · next c rest =>
    split at h
    · next letter =>
      have sign : ∀ d ∈ rest, d ∈ (splitSign rest).2 ∨ isPart d = true := by
        intro d hd
        unfold splitSign
        split
        · exact (List.mem_cons.1 hd).symm.imp_right fun same => by rw [same]; decide
        · exact (List.mem_cons.1 hd).symm.imp_right fun same => by rw [same]; decide
        · exact .inl hd
      dsimp only at h
      split at h
      · next digits =>
        intro d hd
        rcases List.mem_cons.1 hd with rfl | hd
        · rcases letter with rfl | rfl <;> decide
        · refine (sign d hd).elim (fun digit => ?_) id
          unfold isPart
          rw [List.all_eq_true.1 digits.2 d digit, Bool.true_or]
      · cases h
    · cases h

theorem isPart_of_unsigned? {negative : Bool} {text : List Char} {d : Decimal}
    (h : unsigned? negative text = some d) : ∀ c ∈ text, isPart c = true := by
  have digit : ∀ {digits : List Char}, ∀ c ∈ digits.takeWhile Char.isDigit, isPart c = true := by
    intro digits c hc
    unfold isPart
    rw [List.mem_takeWhile_imp hc, Bool.true_or]
  intro c hc
  rw [← List.takeWhile_append_dropWhile (p := Char.isDigit) (l := text)] at hc
  refine (List.mem_append.1 hc).elim (digit c) fun hc => ?_
  unfold unsigned? at h
  dsimp only at h
  split at h
  · next rest point =>
    split at h
    · cases h
    · obtain ⟨exp, read, -⟩ := Option.map_eq_some_iff.1 h
      rw [point, ← List.takeWhile_append_dropWhile (p := Char.isDigit) (l := rest)] at hc
      rcases List.mem_cons.1 hc with rfl | hc
      · decide
      · exact (List.mem_append.1 hc).elim (digit c) (isPart_of_exponent? read c)
  · split at h
    · cases h
    · obtain ⟨exp, read, -⟩ := Option.map_eq_some_iff.1 h
      exact isPart_of_exponent? read c hc

end Decimal

end SettingsSweep

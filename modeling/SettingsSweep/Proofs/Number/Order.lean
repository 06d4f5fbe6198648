import SettingsSweep.Proofs.Number.Exact

/-!
Rounding keeps the order of rationals. What a rational is rounded to without a largest exponent is a monotone function
of it, with a small relative error; a number shows that value, or is infinite where the value is too large.
-/

set_option autoImplicit false

namespace SettingsSweep.Binary64

theorem roundHalfEven_le_of_le (b : Nat) {a c : Nat} (h : a ≤ c) :
    roundHalfEven a b ≤ roundHalfEven c b := by
  have whole : a / b ≤ c / b := Nat.div_le_div_right h
  rcases Nat.eq_or_lt_of_le whole with same | less
  · have rest : a % b ≤ c % b := by
      have ha := Nat.div_add_mod a b
      have hc := Nat.div_add_mod c b
      rw [same] at ha
      omega
    unfold roundHalfEven
    dsimp only
    rw [same]
    split <;> split <;> omega
  · rcases roundHalfEven_cases a b with ⟨ea, -⟩ | ⟨ea, -⟩ <;>
      rcases roundHalfEven_cases c b with ⟨ec, -⟩ | ⟨ec, -⟩ <;> omega

theorem roundHalfEven_mono {a b c d : Nat} (hb : 0 < b) (hd : 0 < d) (h : (a : ℚ) / b ≤ c / d) :
    roundHalfEven a b ≤ roundHalfEven c d := by
  have cross : a * d ≤ c * b := by
    rw [div_le_div_iff₀ (by exact_mod_cast hb) (by exact_mod_cast hd)] at h
    exact_mod_cast h
  calc
    roundHalfEven a b = roundHalfEven (a * d) (b * d) := (roundHalfEven_mul_right a b hd).symm
    _ ≤ roundHalfEven (c * b) (b * d) := roundHalfEven_le_of_le _ cross
    _ = roundHalfEven c d := by rw [Nat.mul_comm b d, roundHalfEven_mul_right c d hb]

/-- What a ratio is rounded to if exponents have no upper bound. -/
def unbounded (num den : Nat) : ℚ :=
  roundHalfEven (inUnits num den (unitExponent num den)).1 (inUnits num den (unitExponent num den)).2 *
    2 ^ unitExponent num den

theorem HasUnit.le_of_le {p q : ℚ} {e f : Int} (hp : HasUnit p e) (hq : HasUnit q f) (h : p ≤ q) :
    e ≤ f := by
  rcases hp.le with least | low
  · rw [least]
    exact hq.least
  · have lt : (2 : ℚ) ^ (e + 52) < 2 ^ (f + 53) := lt_of_le_of_lt (low.trans h) hq.lt
    have := (zpow_lt_zpow_iff_right₀ (by norm_num : (1 : ℚ) < 2)).1 lt
    omega

theorem scaled_le_iff {num den : Nat} {e : Int} {k : Nat} :
    ((inUnits num den e).1 : ℚ) / (inUnits num den e).2 ≤ (2 ^ k : Nat) ↔
      (num : ℚ) / den ≤ 2 ^ (e + k) := by
  rw [inUnits_ratio, div_le_iff₀ (by positivity), zpow_add₀ (by norm_num), zpow_natCast, mul_comm]
  push_cast
  rfl

theorem le_scaled_iff {num den : Nat} {e : Int} {k : Nat} :
    ((2 ^ k : Nat) : ℚ) ≤ ((inUnits num den e).1 : ℚ) / (inUnits num den e).2 ↔
      (2 : ℚ) ^ (e + k) ≤ num / den := by
  rw [inUnits_ratio, le_div_iff₀ (by positivity), zpow_add₀ (by norm_num), zpow_natCast, mul_comm]
  push_cast
  rfl

theorem significand_bounds {num den : Nat} {e : Int} (hd : 0 < den) (unit : HasUnit ((num : ℚ) / den) e) :
    roundHalfEven (inUnits num den e).1 (inUnits num den e).2 ≤ 2 ^ 53 ∧
      (e = -1074 ∨ 2 ^ 52 ≤ roundHalfEven (inUnits num den e).1 (inUnits num den e).2) := by
  have pos := inUnits_pos num hd e
  refine ⟨roundHalfEven_le pos (scaled_le_iff.2 ?_), unit.le.imp_right fun low => ?_⟩
  · exact unit.lt.le
  · exact le_roundHalfEven pos (le_scaled_iff.2 low)

theorem unbounded_mono {a b c d : Nat} (ha : 0 < a) (hb : 0 < b) (hd : 0 < d)
    (h : (a : ℚ) / b ≤ c / d) : unbounded a b ≤ unbounded c d := by
  have hc : 0 < c := by
    have pos : (0 : ℚ) < c / d := lt_of_lt_of_le (by positivity) h
    have := (div_pos_iff_of_pos_right (by exact_mod_cast hd)).1 pos
    exact_mod_cast this
  have low := hasUnit_unitExponent ha hb
  have high := hasUnit_unitExponent hc hd
  have le := low.le_of_le high h
  unfold unbounded
  generalize unitExponent a b = e at low le
  generalize unitExponent c d = f at high le
  rcases Int.le_iff_lt_or_eq.1 le with less | rfl
  · -- The greater ratio has the greater unit, and a power of two stands between them.
    have top := (significand_bounds hb low).1
    have bottom := (significand_bounds hd high).2.resolve_left (by have := low.least; omega)
    calc
      ((roundHalfEven (inUnits a b e).1 (inUnits a b e).2 : Nat) : ℚ) * 2 ^ e ≤ (2 ^ 53 : Nat) * 2 ^ e := by
        gcongr
      _ = 2 ^ (e + 53) := by
        rw [zpow_add₀ (by norm_num), mul_comm]
        norm_cast
      _ ≤ 2 ^ (f + 52) := zpow_le_zpow_right₀ (by norm_num) (by omega)
      _ = (2 ^ 52 : Nat) * 2 ^ f := by
        rw [zpow_add₀ (by norm_num), mul_comm]
        norm_cast
      _ ≤ (roundHalfEven (inUnits c d f).1 (inUnits c d f).2 : Nat) * 2 ^ f := by
        gcongr
  · have mant : roundHalfEven (inUnits a b e).1 (inUnits a b e).2 ≤
        roundHalfEven (inUnits c d e).1 (inUnits c d e).2 := by
      refine roundHalfEven_mono (inUnits_pos a hb e) (inUnits_pos c hd e) ?_
      rw [inUnits_ratio, inUnits_ratio]
      gcongr
    gcongr

theorem unbounded_congr {a b c d : Nat} (ha : 0 < a) (hb : 0 < b) (hd : 0 < d)
    (h : (a : ℚ) / b = c / d) : unbounded a b = unbounded c d := by
  have hc : 0 < c := by
    have pos : (0 : ℚ) < c / d := h ▸ (by positivity)
    have := (div_pos_iff_of_pos_right (by exact_mod_cast hd)).1 pos
    exact_mod_cast this
  exact le_antisymm (unbounded_mono ha hb hd h.le) (unbounded_mono hc hd hb h.ge)

theorem unbounded_nonneg (num den : Nat) : 0 ≤ unbounded num den := by
  unfold unbounded
  positivity

/-- The error is at most half a unit in the 53rd bit, or half the least number. -/
theorem abs_unbounded_sub_le {num den : Nat} (hn : 0 < num) (hd : 0 < den) :
    |unbounded num den - num / den| ≤ num / den / 2 ^ 53 + 2 ^ (-1075 : Int) := by
  have unit := hasUnit_unitExponent hn hd
  have error := abs_units_sub_le num hd (unitExponent num den)
  have pos : (0 : ℚ) ≤ num / den := by positivity
  refine error.trans ?_
  rcases unit.le with least | low
  · have half : (2 : ℚ) ^ unitExponent num den / 2 = 2 ^ (-1075 : Int) := by
      rw [least, div_eq_mul_inv, ← zpow_sub_one₀ (by norm_num)]
      congr 1
    rw [half]
    have : (0 : ℚ) ≤ num / den / 2 ^ 53 := by positivity
    linarith
  · have half : (2 : ℚ) ^ unitExponent num den / 2 = 2 ^ (unitExponent num den + 52) / 2 ^ 53 := by
      rw [zpow_add₀ (by norm_num)]
      norm_num
      ring
    rw [half]
    have tiny : (0 : ℚ) ≤ 2 ^ (-1075 : Int) := by positivity
    have : (2 : ℚ) ^ (unitExponent num den + 52) / 2 ^ 53 ≤ num / den / 2 ^ 53 := by gcongr
    linarith

theorem ofParts_eq {mant : Nat} {exp : Int} (lt : mant < 2 ^ 53) (least : -1074 ≤ exp)
    (full : 2 ^ 52 ≤ mant ∨ exp = -1074) (s : Bool) :
    (∃ canonical, ofParts s mant exp = .finite s mant exp canonical ∧ (mant : ℚ) * 2 ^ exp < 2 ^ (1024 : Int)) ∨
      ofParts s mant exp = .infinite s ∧ (2 : ℚ) ^ (1024 : Int) ≤ mant * 2 ^ exp := by
  by_cases inRange : exp ≤ 971
  · have canonical : Canonical mant exp := ⟨lt, least, inRange, full⟩
    refine .inl ⟨canonical, ofParts_of_canonical canonical s, ?_⟩
    have size : (mant : ℚ) < 2 ^ (53 : Int) := by exact_mod_cast lt
    calc
      (mant : ℚ) * 2 ^ exp < 2 ^ (53 : Int) * 2 ^ exp := by gcongr
      _ = 2 ^ (53 + exp) := (zpow_add₀ (by norm_num) _ _).symm
      _ ≤ 2 ^ (1024 : Int) := zpow_le_zpow_right₀ (by norm_num) (by omega)
  · have large : ¬ Canonical mant exp := fun h => inRange h.2.2.1
    refine .inr ⟨dif_neg large, ?_⟩
    have size : (2 : ℚ) ^ (52 : Int) ≤ mant := by exact_mod_cast full.resolve_right (by omega)
    calc
      (2 : ℚ) ^ (1024 : Int) ≤ 2 ^ (52 + exp) := zpow_le_zpow_right₀ (by norm_num) (by omega)
      _ = 2 ^ (52 : Int) * 2 ^ exp := zpow_add₀ (by norm_num) _ _
      _ ≤ mant * 2 ^ exp := by gcongr

/-- Rounding into the range of numbers is rounding without a largest exponent and a look at the result. -/
theorem ofRatio_cases {num den : Nat} (hn : 0 < num) (hd : 0 < den) (s : Bool) :
    (∃ m e canonical, ofRatio s num den = .finite s m e canonical ∧ (m : ℚ) * 2 ^ e = unbounded num den ∧
      unbounded num den < 2 ^ (1024 : Int)) ∨
    ofRatio s num den = .infinite s ∧ 2 ^ (1024 : Int) ≤ unbounded num den := by
  have unit := hasUnit_unitExponent hn hd
  obtain ⟨most, least⟩ := significand_bounds hd unit
  have bottom := unit.least
  rw [ofRatio_eq hn hd unit (inUnits_pos num hd _) (inUnits_ratio num den _)]
  unfold unbounded
  generalize unitExponent num den = e at *
  generalize roundHalfEven (inUnits num den e).1 (inUnits num den e).2 = mant at *
  split
  · next carry =>
    have value : ((2 ^ 52 : Nat) : ℚ) * 2 ^ (e + 1) = mant * 2 ^ e := by
      rw [carry, zpow_add₀ (by norm_num), Nat.pow_eq]
      norm_num
      ring
    rcases ofParts_eq (by norm_num : 2 ^ 52 < 2 ^ 53) (by omega : -1074 ≤ e + 1) (.inl le_rfl) s with
      ⟨canonical, eq, lt⟩ | ⟨eq, le⟩
    · exact .inl ⟨_, _, canonical, eq, value, value ▸ lt⟩
    · exact .inr ⟨eq, value ▸ le⟩
  · next small =>
    have lt : mant < 2 ^ 53 := Nat.lt_of_le_of_ne most small
    rcases ofParts_eq lt bottom least.symm s with ⟨canonical, eq, lt⟩ | ⟨eq, le⟩
    · exact .inl ⟨_, _, canonical, eq, rfl, lt⟩
    · exact .inr ⟨eq, le⟩

theorem natAbs_num_div_den (q : ℚ) : (q.num.natAbs : ℚ) / q.den = |q| := by
  rw [Nat.cast_natAbs, Int.cast_abs, ← abs_of_nonneg (Nat.cast_nonneg (α := ℚ) q.den), ← abs_div,
    Rat.num_div_den]

def magnitude (q : ℚ) : ℚ := unbounded q.num.natAbs q.den

theorem magnitude_zero : magnitude 0 = 0 := by
  have none : ∀ den, roundHalfEven 0 den = 0 := by
    intro den
    unfold roundHalfEven
    dsimp only
    rw [Nat.zero_div, Nat.zero_mod, if_neg (by omega)]
  unfold magnitude unbounded
  rw [Rat.num_zero, Int.natAbs_zero]
  have start : (inUnits 0 (Rat.den 0) (unitExponent 0 (Rat.den 0))).1 = 0 := by
    unfold inUnits
    split <;> simp
  rw [start, none, Nat.cast_zero, zero_mul]

theorem magnitude_of_eq {q : ℚ} {num den : Nat} (hn : 0 < num) (hd : 0 < den) (h : |q| = num / den) :
    magnitude q = unbounded num den := by
  rw [← natAbs_num_div_den] at h
  exact (unbounded_congr hn hd q.den_pos h.symm).symm

theorem magnitude_le_of_le {p q : ℚ} (h : |p| ≤ |q|) : magnitude p ≤ magnitude q := by
  by_cases zero : p = 0
  · rw [zero, magnitude_zero]
    exact unbounded_nonneg _ _
  · rw [← natAbs_num_div_den, ← natAbs_num_div_den] at h
    exact unbounded_mono (Int.natAbs_pos.2 (Rat.num_ne_zero.2 zero)) p.den_pos q.den_pos h

/-- What a rational is rounded to if exponents have no upper bound. -/
def nearestTo (q : ℚ) : ℚ := if q < 0 then -magnitude q else magnitude q

theorem abs_nearestTo (q : ℚ) : |nearestTo q| = magnitude q := by
  have nonneg : 0 ≤ magnitude q := unbounded_nonneg _ _
  unfold nearestTo
  split
  · rw [abs_neg, abs_of_nonneg nonneg]
  · exact abs_of_nonneg nonneg

theorem nearestTo_mono : Monotone nearestTo := by
  intro p q h
  have hp : 0 ≤ magnitude p := unbounded_nonneg _ _
  have hq : 0 ≤ magnitude q := unbounded_nonneg _ _
  unfold nearestTo
  split
  · next negative =>
    split
    · next negative' =>
      refine neg_le_neg (magnitude_le_of_le ?_)
      rw [abs_of_neg negative, abs_of_neg negative']
      exact neg_le_neg h
    · linarith
  · next nonneg =>
    have nonneg' : 0 ≤ q := (not_lt.1 nonneg).trans h
    rw [if_neg (not_lt.2 nonneg')]
    refine magnitude_le_of_le ?_
    rwa [abs_of_nonneg (not_lt.1 nonneg), abs_of_nonneg nonneg']

theorem abs_nearestTo_sub_le (q : ℚ) : |nearestTo q - q| ≤ |q| / 2 ^ 53 + 2 ^ (-1075 : Int) := by
  by_cases zero : q = 0
  · have tiny : (0 : ℚ) ≤ 2 ^ (-1075 : Int) := by positivity
    simp [zero, nearestTo, magnitude_zero]
  · have error := abs_unbounded_sub_le (Int.natAbs_pos.2 (Rat.num_ne_zero.2 zero)) q.den_pos
    rw [natAbs_num_div_den] at error
    change |magnitude q - (|q|)| ≤ _ at error
    refine le_trans (le_of_eq ?_) error
    unfold nearestTo
    split
    · next negative =>
      rw [abs_of_neg negative, ← abs_neg]
      congr 1
      ring
    · next nonneg => rw [abs_of_nonneg (not_lt.1 nonneg)]

/-- A number shows what a rational is rounded to, or is infinite on its side. -/
def RoundsTo (q : ℚ) (x : Binary64) : Prop :=
  (x.isFinite = true ∧ x.toRat = nearestTo q ∧ |nearestTo q| < 2 ^ (1024 : Int)) ∨
    x = .infinite (decide (q < 0)) ∧ 2 ^ (1024 : Int) ≤ |nearestTo q|

theorem roundsTo_zero {x : Binary64} (h : x.isZero = true) : RoundsTo 0 x := by
  cases x with
  | finite s m e canonical =>
    obtain rfl : m = 0 := by simpa [isZero] using h
    refine .inl ⟨rfl, ?_, ?_⟩
    · simp [toRat, nearestTo, magnitude_zero]
    · rw [abs_nearestTo, magnitude_zero]
      positivity
  | infinite s => cases h
  | nan => cases h

theorem roundsTo_ofRatio {q : ℚ} {s : Bool} {num den : Nat} (hn : 0 < num) (hd : 0 < den)
    (h : q = signedRatio s num den) : RoundsTo q (ofRatio s num den) := by
  have size : magnitude q = unbounded num den := by
    refine magnitude_of_eq hn hd ?_
    rw [h, abs_signedRatio]
  have sign : decide (q < 0) = s := by
    simp only [h, signedRatio_neg_iff hn hd, Bool.decide_eq_true]
  have value : nearestTo q = (if s then -1 else 1) * unbounded num den := by
    unfold nearestTo
    rw [← sign, size]
    by_cases negative : q < 0 <;> simp [negative]
  unfold RoundsTo
  rw [abs_nearestTo, size, sign]
  rcases ofRatio_cases hn hd s with ⟨m, e, canonical, eq, same, lt⟩ | ⟨eq, le⟩
  · refine .inl ⟨by rw [eq]; rfl, ?_, lt⟩
    rw [eq, value, toRat, same]
  · exact .inr ⟨eq, le⟩

section

variable {p q : ℚ} {x y : Binary64}

theorem RoundsTo.isFinite (h : RoundsTo q x) (small : |q| ≤ 2 ^ (1022 : Int)) : x.isFinite = true := by
  rcases h with ⟨finite, -, -⟩ | ⟨-, large⟩
  · exact finite
  · exfalso
    have error := abs_nearestTo_sub_le q
    have near := abs_sub_abs_le_abs_sub (nearestTo q) q
    have tiny : (2 : ℚ) ^ (-1075 : Int) ≤ 2 ^ (1022 : Int) :=
      zpow_le_zpow_right₀ (by norm_num) (by norm_num)
    have top : (2 : ℚ) ^ (1024 : Int) = 2 ^ (2 : Int) * 2 ^ (1022 : Int) := by
      rw [← zpow_add₀ (by norm_num)]
      congr 1
    have pos : (0 : ℚ) < 2 ^ (1022 : Int) := by positivity
    rw [top] at large
    generalize (2 : ℚ) ^ (1022 : Int) = c at small tiny large pos
    generalize (2 : ℚ) ^ (-1075 : Int) = t at tiny error
    norm_num at large error
    linarith

theorem RoundsTo.toRat (h : RoundsTo q x) (finite : x.isFinite = true) : x.toRat = nearestTo q := by
  rcases h with ⟨-, value, -⟩ | ⟨rfl, -⟩
  · exact value
  · cases finite

theorem RoundsTo.abs_sub_le (h : RoundsTo q x) (finite : x.isFinite = true) :
    |x.toRat - q| ≤ |q| / 2 ^ 53 + 2 ^ (-1075 : Int) := by
  rw [h.toRat finite]
  exact abs_nearestTo_sub_le q

theorem RoundsTo.ne_nan (h : RoundsTo q x) : x ≠ .nan := by
  rintro rfl
  rcases h with ⟨finite, -⟩ | ⟨eq, -⟩
  · cases finite
  · cases eq

theorem le_infinite (h : x ≠ .nan) : x.le (.infinite false) = true := by
  cases x with
  | finite s m e canonical => rfl
  | infinite s => cases s <;> rfl
  | nan => exact absurd rfl h

theorem infinite_le (h : x ≠ .nan) : (infinite true).le x = true := by
  cases x with
  | finite s m e canonical => rfl
  | infinite s => cases s <;> rfl
  | nan => exact absurd rfl h

theorem le_of_roundsTo (hp : RoundsTo p x) (hq : RoundsTo q y) (h : p ≤ q) : x.le y = true := by
  have le := nearestTo_mono h
  by_cases fx : x.isFinite = true
  · by_cases fy : y.isFinite = true
    · rw [le_iff fx fy, hp.toRat fx, hq.toRat fy]
      exact le
    · obtain ⟨rfl, large⟩ := hq.resolve_left fun finite => fy finite.1
      have small := (hp.resolve_right (by rintro ⟨rfl, -⟩; cases fx)).2.2
      -- A finite number cannot stand for less than minus infinity does.
      have nonneg : ¬ q < 0 := by
        intro negative
        rw [abs_lt] at small
        rw [abs_nearestTo] at large
        have below : nearestTo q = -magnitude q := if_pos negative
        linarith
      rw [decide_eq_false nonneg]
      exact le_infinite hp.ne_nan
  · obtain ⟨rfl, large⟩ := hp.resolve_left fun finite => fx finite.1
    by_cases negative : p < 0
    · rw [decide_eq_true negative]
      exact infinite_le hq.ne_nan
    · have above : nearestTo p = magnitude p := if_neg negative
      rw [abs_nearestTo] at large
      obtain ⟨rfl, -⟩ := hq.resolve_left fun finite => by
        have := (abs_lt.1 finite.2.2).2
        linarith
      rw [decide_eq_false (by linarith : ¬ q < 0)]
      exact le_infinite (by simp)

end

end SettingsSweep.Binary64

import SettingsSweep.Proofs.Number.Value
import Mathlib.Tactic.FieldSimp

/-!
Rounding a ratio. Its unit is the power of two in which it has 53 bits, and what it is rounded to is the
nearest multiple of that unit: no other number is as near, and nothing but the value of the ratio counts.
-/

set_option autoImplicit false

namespace SettingsSweep.Binary64

theorem roundHalfEven_cases (a b : Nat) :
    roundHalfEven a b = a / b ∧ 2 * (a % b) ≤ b ∨
      roundHalfEven a b = a / b + 1 ∧ b ≤ 2 * (a % b) := by
  unfold roundHalfEven
  dsimp only
  split
  · exact .inr ⟨rfl, by omega⟩
  · exact .inl ⟨rfl, by omega⟩

theorem abs_roundHalfEven_sub_le {a b : Nat} (pos : 0 < b) :
    |(roundHalfEven a b : ℚ) - a / b| ≤ 1 / 2 := by
  have hb : (0 : ℚ) < b := by exact_mod_cast pos
  have whole : (b : ℚ) * (a / b : Nat) + (a % b : Nat) = a := by exact_mod_cast Nat.div_add_mod a b
  have split : (a : ℚ) / b = (a / b : Nat) + (a % b : Nat) / b := by
    rw [← whole]
    field_simp
  have low : (0 : ℚ) ≤ (a % b : Nat) / b := by positivity
  have high : ((a % b : Nat) : ℚ) / b ≤ 1 := by
    rw [div_le_one hb]
    exact_mod_cast (Nat.mod_lt a pos).le
  rw [split, abs_le]
  rcases roundHalfEven_cases a b with ⟨he, hr⟩ | ⟨he, hr⟩
  · have half : ((a % b : Nat) : ℚ) / b ≤ 1 / 2 := by
      rw [div_le_iff₀ hb]
      have : (2 : ℚ) * (a % b : Nat) ≤ b := by exact_mod_cast hr
      linarith
    rw [he]
    constructor <;> linarith
  · have half : (1 / 2 : ℚ) ≤ (a % b : Nat) / b := by
      rw [le_div_iff₀ hb]
      have : (b : ℚ) ≤ 2 * (a % b : Nat) := by exact_mod_cast hr
      linarith
    rw [he]
    push_cast
    constructor <;> linarith

theorem roundHalfEven_of_near {a b k : Nat} (pos : 0 < b) (near : |(k : ℚ) - a / b| < 1 / 2) :
    roundHalfEven a b = k := by
  have error := abs_roundHalfEven_sub_le (a := a) pos
  rw [abs_le] at error
  rw [abs_lt] at near
  have above : (roundHalfEven a b : ℚ) < k + 1 := by linarith
  have below : (k : ℚ) < roundHalfEven a b + 1 := by linarith
  have above' : roundHalfEven a b < k + 1 := by exact_mod_cast above
  have below' : k < roundHalfEven a b + 1 := by exact_mod_cast below
  omega

theorem le_roundHalfEven {a b k : Nat} (pos : 0 < b) (h : (k : ℚ) ≤ a / b) :
    k ≤ roundHalfEven a b := by
  rw [le_div_iff₀ (by exact_mod_cast pos)] at h
  have whole : k ≤ a / b := (Nat.le_div_iff_mul_le pos).2 (by exact_mod_cast h)
  rcases roundHalfEven_cases a b with ⟨he, -⟩ | ⟨he, -⟩ <;> omega

theorem roundHalfEven_le {a b k : Nat} (pos : 0 < b) (h : (a : ℚ) / b ≤ k) :
    roundHalfEven a b ≤ k := by
  rw [div_le_iff₀ (by exact_mod_cast pos)] at h
  have size : a ≤ k * b := by exact_mod_cast h
  have whole : a / b ≤ k := (Nat.div_le_div_right size).trans_eq (Nat.mul_div_cancel k pos)
  rcases roundHalfEven_cases a b with ⟨he, -⟩ | ⟨he, hr⟩
  · rwa [he]
  · -- Something is left over, so the quotient falls short of the bound.
    rw [he]
    refine Nat.lt_of_le_of_ne whole fun eq => ?_
    have parts := Nat.div_add_mod a b
    rw [eq, Nat.mul_comm] at parts
    omega

theorem roundHalfEven_mul_right (a b : Nat) {c : Nat} (pos : 0 < c) :
    roundHalfEven (a * c) (b * c) = roundHalfEven a b := by
  have above : 2 * (a % b * c) > b * c ↔ 2 * (a % b) > b := by
    rw [← Nat.mul_assoc]
    exact Nat.mul_lt_mul_right pos
  have tie : 2 * (a % b * c) = b * c ↔ 2 * (a % b) = b := by
    rw [← Nat.mul_assoc]
    exact Nat.mul_left_inj (Nat.ne_of_gt pos)
  unfold roundHalfEven
  simp only [Nat.mul_div_mul_right _ _ pos, Nat.mul_mod_mul_right, above, tie]

theorem roundHalfEven_congr {a b c d : Nat} (hb : 0 < b) (hd : 0 < d)
    (h : (a : ℚ) / b = c / d) : roundHalfEven a b = roundHalfEven c d := by
  have hb' : (b : ℚ) ≠ 0 := by exact_mod_cast Nat.ne_of_gt hb
  have hd' : (d : ℚ) ≠ 0 := by exact_mod_cast Nat.ne_of_gt hd
  have cross : a * d = c * b := by
    rw [div_eq_div_iff hb' hd'] at h
    exact_mod_cast h
  calc
    roundHalfEven a b = roundHalfEven (a * d) (b * d) := (roundHalfEven_mul_right a b hd).symm
    _ = roundHalfEven (c * b) (d * b) := by rw [cross, Nat.mul_comm b d]
    _ = roundHalfEven c d := roundHalfEven_mul_right c d hb

/-- In this unit a positive ratio has 53 bits, unless the unit is the least one. -/
structure HasUnit (q : ℚ) (exp : Int) : Prop where
  least : -1074 ≤ exp
  lt : q < 2 ^ (exp + 53)
  le : exp = -1074 ∨ 2 ^ (exp + 52) ≤ q

theorem HasUnit.unique {q : ℚ} {e f : Int} (he : HasUnit q e) (hf : HasUnit q f) : e = f := by
  have below : ∀ {e f : Int}, HasUnit q e → HasUnit q f → e ≤ f := by
    intro e f he hf
    rcases he.le with h | h
    · rw [h]
      exact hf.least
    · have lt : (2 : ℚ) ^ (e + 52) < 2 ^ (f + 53) := lt_of_le_of_lt h hf.lt
      have := (zpow_lt_zpow_iff_right₀ (by norm_num : (1 : ℚ) < 2)).1 lt
      omega
  exact le_antisymm (below he hf) (below hf he)

theorem inUnits_pos (num : Nat) {den : Nat} (pos : 0 < den) (exp : Int) :
    0 < (inUnits num den exp).2 := by
  unfold inUnits
  split
  · exact pos
  · exact Nat.mul_pos pos (Nat.two_pow_pos _)

theorem inUnits_ratio (num den : Nat) (exp : Int) :
    ((inUnits num den exp).1 : ℚ) / (inUnits num den exp).2 = num / den / 2 ^ exp := by
  unfold inUnits
  split
  · next neg =>
    rw [two_zpow_of_neg neg, Nat.pow_eq, Nat.cast_mul]
    field_simp
  · next nonneg =>
    rw [two_zpow_of_nonneg (not_lt.1 nonneg), Nat.pow_eq, Nat.cast_mul, div_div]

theorem abs_units_sub_le (num : Nat) {den : Nat} (pos : 0 < den) (exp : Int) :
    |(roundHalfEven (inUnits num den exp).1 (inUnits num den exp).2 : ℚ) * 2 ^ exp - num / den| ≤
      2 ^ exp / 2 := by
  have xpos : (0 : ℚ) < 2 ^ exp := by positivity
  have error := abs_roundHalfEven_sub_le (a := (inUnits num den exp).1) (inUnits_pos num pos exp)
  rw [inUnits_ratio] at error
  generalize roundHalfEven (inUnits num den exp).1 (inUnits num den exp).2 = mant at error
  have scaled : (mant : ℚ) * 2 ^ exp - num / den = (mant - num / den / 2 ^ exp) * 2 ^ exp := by
    field_simp
  rw [scaled, abs_mul, abs_of_pos xpos]
  calc
    |(mant : ℚ) - num / den / 2 ^ exp| * 2 ^ exp ≤ 1 / 2 * 2 ^ exp := by gcongr
    _ = 2 ^ exp / 2 := by ring

theorem hasUnit_unitExponent {num den : Nat} (hn : 0 < num) (hd : 0 < den) :
    HasUnit ((num : ℚ) / den) (unitExponent num den) := by
  have dpos : (0 : ℚ) < den := by exact_mod_cast hd
  have num_le : (2 : ℚ) ^ num.log2 ≤ num := by exact_mod_cast Nat.log2_self_le hn.ne'
  have num_lt : (num : ℚ) < 2 ^ (num.log2 + 1) := by exact_mod_cast Nat.lt_log2_self
  have den_le : (2 : ℚ) ^ den.log2 ≤ den := by exact_mod_cast Nat.log2_self_le hd.ne'
  have den_lt : (den : ℚ) < 2 ^ (den.log2 + 1) := by exact_mod_cast Nat.lt_log2_self
  -- The lengths of the two numbers leave a choice of two units.
  generalize hlow : (num.log2 : Int) - (den.log2 : Int) - 53 = low
  have above : (2 : ℚ) ^ (low + 52) ≤ num / den := by
    rw [le_div_iff₀ dpos]
    calc
      (2 : ℚ) ^ (low + 52) * den ≤ 2 ^ (low + 52) * 2 ^ (den.log2 + 1) := by gcongr
      _ = 2 ^ num.log2 := by
        rw [← zpow_natCast, ← zpow_natCast, ← zpow_add₀ (by norm_num)]
        congr 1
        push_cast
        omega
      _ ≤ num := num_le
  have below : (num : ℚ) / den < 2 ^ (low + 54) := by
    rw [div_lt_iff₀ dpos]
    calc
      (num : ℚ) < 2 ^ (num.log2 + 1) := num_lt
      _ = 2 ^ (low + 54) * 2 ^ den.log2 := by
        rw [← zpow_natCast, ← zpow_natCast, ← zpow_add₀ (by norm_num)]
        congr 1
        push_cast
        omega
      _ ≤ 2 ^ (low + 54) * den := by gcongr
  have middle : (inUnits num den low).1 < (inUnits num den low).2 * Nat.pow 2 53 ↔
      (num : ℚ) / den < 2 ^ (low + 53) := by
    have ipos : (0 : ℚ) < (inUnits num den low).2 := by exact_mod_cast inUnits_pos _ hd low
    have upos : (0 : ℚ) < 2 ^ low := by positivity
    have ratio := inUnits_ratio num den low
    have shift : (2 : ℚ) ^ (low + 53) = 2 ^ 53 * 2 ^ low := by
      rw [zpow_add₀ (by norm_num), mul_comm]
      rfl
    rw [shift, ← div_lt_iff₀ upos, ← ratio, div_lt_iff₀ ipos, Nat.pow_eq, mul_comm ((2 : ℚ) ^ 53)]
    exact_mod_cast Iff.rfl
  unfold unitExponent
  simp only [hlow]
  generalize hexp : (if (inUnits num den low).1 < (inUnits num den low).2 * Nat.pow 2 53 then low
    else low + 1) = exp
  have unit : (num : ℚ) / den < 2 ^ (exp + 53) ∧ (2 : ℚ) ^ (exp + 52) ≤ num / den := by
    rw [← hexp]
    split
    · next h => exact ⟨middle.1 h, above⟩
    · next h =>
      have h' := not_lt.1 (mt middle.2 h)
      refine ⟨?_, ?_⟩
      · rw [show low + 1 + 53 = low + 54 by omega]
        exact below
      · rw [show low + 1 + 52 = low + 53 by omega]
        exact h'
  refine ⟨le_max_left _ _, ?_, ?_⟩
  · refine lt_of_lt_of_le unit.1 (zpow_le_zpow_right₀ (by norm_num) ?_)
    have := le_max_right (-1074) exp
    omega
  · rcases le_total exp (-1074) with le | le
    · exact .inl (max_eq_left le)
    · rw [max_eq_right le]
      exact .inr unit.2

theorem ofRatio_eq {num den a b : Nat} {exp : Int} (hn : 0 < num) (hd : 0 < den)
    (unit : HasUnit ((num : ℚ) / den) exp) (hb : 0 < b) (h : (a : ℚ) / b = num / den / 2 ^ exp)
    (s : Bool) : ofRatio s num den =
      if roundHalfEven a b = Nat.pow 2 53 then ofParts s (Nat.pow 2 52) (exp + 1)
      else ofParts s (roundHalfEven a b) exp := by
  have hexp : unitExponent num den = exp := (hasUnit_unitExponent hn hd).unique unit
  have mant : roundHalfEven (inUnits num den exp).1 (inUnits num den exp).2 =
      roundHalfEven a b :=
    roundHalfEven_congr (inUnits_pos _ hd exp) hb ((inUnits_ratio num den exp).trans h.symm)
  -- Rewriting leaves the pair of units closed; computing it would unfold a product with `2^53`.
  unfold ofRatio
  rw [if_neg hn.ne', hexp, ← mant]

/-- Nothing but its value counts for what a ratio is rounded to. -/
theorem ofRatio_congr {num den num' den' : Nat} (hd : 0 < den) (hd' : 0 < den')
    (h : (num : ℚ) / den = num' / den') (s : Bool) : ofRatio s num den = ofRatio s num' den' := by
  have dpos : (0 : ℚ) < den := by exact_mod_cast hd
  have dpos' : (0 : ℚ) < den' := by exact_mod_cast hd'
  by_cases hz : num = 0
  · have hz' : num' = 0 := by
      rw [hz, Nat.cast_zero, zero_div] at h
      have := (div_eq_zero_iff.1 h.symm).resolve_right dpos'.ne'
      exact_mod_cast this
    rw [hz, hz', ofRatio, ofRatio, if_pos rfl, if_pos rfl]
  · have hn : 0 < num := Nat.pos_of_ne_zero hz
    have hn' : 0 < num' := by
      have pos : (0 : ℚ) < num' / den' := h ▸ div_pos (by exact_mod_cast hn) dpos
      have := (div_pos_iff_of_pos_right dpos').1 pos
      exact_mod_cast this
    have unit := hasUnit_unitExponent hn hd
    rw [ofRatio_eq hn hd unit (inUnits_pos _ hd _) (inUnits_ratio num den _),
      ofRatio_eq hn' hd' (h ▸ unit) (inUnits_pos _ hd _) (h ▸ inUnits_ratio num den _)]

theorem ofParts_of_canonical {mant : Nat} {exp : Int} (h : Canonical mant exp) (s : Bool) :
    ofParts s mant exp = .finite s mant exp h := dif_pos h

theorem exists_ofRatio_eq {num den a b : Nat} {exp : Int} (hn : 0 < num) (hd : 0 < den)
    (unit : HasUnit ((num : ℚ) / den) exp) (inRange : exp ≤ 970) (hb : 0 < b)
    (h : (a : ℚ) / b = num / den / 2 ^ exp) (s : Bool) :
    ∃ m e canonical, ofRatio s num den = .finite s m e canonical ∧
      (m : ℚ) * 2 ^ e = roundHalfEven a b * 2 ^ exp := by
  have xpos : (0 : ℚ) < 2 ^ exp := by positivity
  have high : (a : ℚ) / b ≤ (2 ^ 53 : Nat) := by
    rw [h, div_le_iff₀ xpos, Nat.cast_pow, Nat.cast_ofNat, ← zpow_natCast,
      ← zpow_add₀ (by norm_num), add_comm]
    exact unit.lt.le
  have most : roundHalfEven a b ≤ 2 ^ 53 := roundHalfEven_le hb high
  have least : exp = -1074 ∨ 2 ^ 52 ≤ roundHalfEven a b := by
    refine unit.le.imp_right fun low => le_roundHalfEven hb ?_
    rw [h, le_div_iff₀ xpos, Nat.cast_pow, Nat.cast_ofNat, ← zpow_natCast,
      ← zpow_add₀ (by norm_num), add_comm]
    exact low
  have bottom := unit.least
  rw [ofRatio_eq hn hd unit hb h]
  split
  · next carry =>
    have canonical : Canonical (Nat.pow 2 52) (exp + 1) :=
      ⟨by decide, by omega, by omega, .inl le_rfl⟩
    refine ⟨_, _, canonical, ofParts_of_canonical canonical s, ?_⟩
    rw [carry, zpow_add₀ (by norm_num), Nat.pow_eq, Nat.pow_eq]
    norm_num
    ring
  · next small =>
    have canonical : Canonical (roundHalfEven a b) exp :=
      ⟨Nat.lt_of_le_of_ne most small, bottom, by omega, least.symm⟩
    exact ⟨_, _, canonical, ofParts_of_canonical canonical s, rfl⟩

/-- The error, bounded by the size of the ratio. -/
theorem exists_ofRatio_near {num den : Nat} {k : Int} (hn : 0 < num) (hd : 0 < den)
    (lt : (num : ℚ) / den < 2 ^ k) (low : -1021 ≤ k) (high : k ≤ 1023) (s : Bool) :
    ∃ m e canonical, ofRatio s num den = .finite s m e canonical ∧
      |(m : ℚ) * 2 ^ e - num / den| ≤ 2 ^ (k - 54) := by
  generalize hexp : unitExponent num den = exp
  have unit : HasUnit ((num : ℚ) / den) exp := hexp ▸ hasUnit_unitExponent hn hd
  have small : exp ≤ k - 53 := by
    rcases unit.le with h | h
    · omega
    · have := (zpow_lt_zpow_iff_right₀ (by norm_num : (1 : ℚ) < 2)).1 (lt_of_le_of_lt h lt)
      omega
  obtain ⟨m, e, canonical, eq, value⟩ := exists_ofRatio_eq hn hd unit (by omega)
    (inUnits_pos num hd exp) (inUnits_ratio num den exp) s
  refine ⟨m, e, canonical, eq, ?_⟩
  rw [value]
  calc
    |(roundHalfEven (inUnits num den exp).1 (inUnits num den exp).2 : ℚ) * 2 ^ exp - num / den| ≤
        2 ^ exp / 2 := abs_units_sub_le num hd exp
    _ = 2 ^ (exp - 1) := by rw [zpow_sub_one₀ (by norm_num), div_eq_mul_inv]
    _ ≤ 2 ^ (k - 54) := zpow_le_zpow_right₀ (by norm_num) (by omega)

/-- A number less than half a unit away is the one that a ratio is rounded to. -/
theorem ofRatio_of_near {num den m : Nat} {e : Int} (hn : 0 < num) (hd : 0 < den)
    (canonical : Canonical m e) (low : e = -1074 ∨ (2 : ℚ) ^ (e + 52) ≤ num / den)
    (near : |(m : ℚ) * 2 ^ e - num / den| < 2 ^ e / 2) (s : Bool) :
    ofRatio s num den = .finite s m e canonical := by
  have epos : (0 : ℚ) < 2 ^ e := by positivity
  have size : (m : ℚ) + 1 ≤ 2 ^ 53 := by exact_mod_cast canonical.1
  have unit : HasUnit ((num : ℚ) / den) e := by
    refine ⟨canonical.2.1, ?_, low⟩
    have shift : (2 : ℚ) ^ (e + 53) = 2 ^ 53 * 2 ^ e := by
      rw [zpow_add₀ (by norm_num), mul_comm]
      rfl
    rw [shift]
    calc
      (num : ℚ) / den < m * 2 ^ e + 2 ^ e / 2 := by linarith [(abs_lt.1 near).1]
      _ ≤ (m + 1) * 2 ^ e := by linarith
      _ ≤ 2 ^ 53 * 2 ^ e := by gcongr
  have mant : roundHalfEven (inUnits num den e).1 (inUnits num den e).2 = m := by
    refine roundHalfEven_of_near (inUnits_pos _ hd e) ?_
    have scaled : (m : ℚ) - num / den / 2 ^ e = (m * 2 ^ e - num / den) / 2 ^ e := by
      field_simp
    rw [inUnits_ratio, scaled, abs_div, abs_of_pos epos, div_lt_iff₀ epos]
    linarith
  have hm : m ≠ Nat.pow 2 53 := Nat.ne_of_lt canonical.1
  rw [ofRatio_eq hn hd unit (inUnits_pos _ hd e) (inUnits_ratio num den e), mant, if_neg hm,
    ofParts_of_canonical canonical]

/-- What a ratio is rounded to is at most half a unit away. -/
theorem abs_sub_le_of_ofRatio_eq {num den m : Nat} {e : Int} {s t : Bool} {h : Canonical m e}
    (hn : 0 < num) (hd : 0 < den) (eq : ofRatio s num den = .finite t m e h) :
    |(m : ℚ) * 2 ^ e - num / den| ≤ 2 ^ e / 2 := by
  generalize hexp : unitExponent num den = exp
  have unit : HasUnit ((num : ℚ) / den) exp := hexp ▸ hasUnit_unitExponent hn hd
  rw [ofRatio_eq hn hd unit (inUnits_pos num hd exp) (inUnits_ratio num den exp)] at eq
  have scaled := abs_units_sub_le num hd exp
  generalize roundHalfEven (inUnits num den exp).1 (inUnits num den exp).2 = mant at eq scaled
  split at eq
  · next carry =>
    -- The carry doubles the unit and keeps the value.
    unfold ofParts at eq
    split at eq
    · injection eq with _ hm he
      have value : (m : ℚ) * 2 ^ e = mant * 2 ^ exp := by
        rw [← hm, ← he, carry, zpow_add₀ (by norm_num)]
        norm_num
        ring
      rw [value, ← he, zpow_add₀ (by norm_num)]
      have xpos : (0 : ℚ) < 2 ^ exp := by positivity
      linarith
    · cases eq
  · unfold ofParts at eq
    split at eq
    · injection eq with _ hm he
      rw [← hm, ← he]
      exact scaled
    · cases eq

end SettingsSweep.Binary64

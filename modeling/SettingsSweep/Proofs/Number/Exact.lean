import SettingsSweep.Proofs.Number.Rounding

/-!
Operations on finite numbers, told by values: each gives its true result, rounded. So integers below `2^53`
are numbers, and sums, differences, products and quotients that are such integers are exact.
-/

set_option autoImplicit false

namespace SettingsSweep.Binary64

theorem ofRatio_self {m num den : Nat} {e : Int} (hn : 0 < num) (hd : 0 < den)
    (canonical : Canonical m e) (value : (m : ℚ) * 2 ^ e = num / den) (s : Bool) :
    ofRatio s num den = .finite s m e canonical := by
  refine ofRatio_of_near hn hd canonical ?_ ?_ s
  · refine canonical.2.2.2.symm.imp_right fun normal => ?_
    have normal' : (2 : ℚ) ^ 52 ≤ m := by exact_mod_cast normal
    rw [← value, add_comm, zpow_add₀ (by norm_num)]
    gcongr
    exact normal'
  · rw [value, sub_self, abs_zero]
    positivity

theorem ofRatio_natural {n : Nat} (pos : 0 < n) (lt : n < 2 ^ 53) (s : Bool) :
    ∃ m canonical, ofRatio s n 1 = .finite s m (n.log2 - 52) canonical ∧
      (m : ℚ) * 2 ^ ((n.log2 : Int) - 52) = n := by
  have low := Nat.log2_self_le pos.ne'
  have high := Nat.lt_log2_self (n := n)
  have short : n.log2 < 53 := (Nat.log2_lt pos.ne').2 lt
  have value : ((n * 2 ^ (52 - n.log2) : Nat) : ℚ) * 2 ^ ((n.log2 : Int) - 52) = n := by
    have cancel : (2 : ℚ) ^ (52 - n.log2) * 2 ^ ((n.log2 : Int) - 52) = 1 := by
      rw [← zpow_natCast, ← zpow_add₀ (by norm_num),
        show ((52 - n.log2 : Nat) : Int) + (n.log2 - 52) = 0 by omega, zpow_zero]
    push_cast
    rw [mul_assoc, cancel, mul_one]
  -- Shifted to 53 bits the number is in canonical form.
  have canonical : Canonical (n * 2 ^ (52 - n.log2)) ((n.log2 : Int) - 52) := by
    refine ⟨?_, by omega, by omega, .inl ?_⟩
    · calc
        n * 2 ^ (52 - n.log2) < 2 ^ (n.log2 + 1) * 2 ^ (52 - n.log2) :=
          Nat.mul_lt_mul_of_pos_right high (Nat.two_pow_pos _)
        _ = Nat.pow 2 53 := by
          rw [← Nat.pow_add, show n.log2 + 1 + (52 - n.log2) = 53 by omega]
    · calc
        Nat.pow 2 52 = 2 ^ n.log2 * 2 ^ (52 - n.log2) := by
          rw [← Nat.pow_add, show n.log2 + (52 - n.log2) = 52 by omega]
        _ ≤ n * 2 ^ (52 - n.log2) := Nat.mul_le_mul_right _ low
  refine ⟨_, canonical, ofRatio_self pos Nat.one_pos canonical ?_ s, value⟩
  rw [value, Nat.cast_one, div_one]

/-- The multiple of its unit that a natural number rounds to. -/
def nearest (n : Nat) : Nat := roundHalfEven n (2 ^ (n.log2 - 52)) * 2 ^ (n.log2 - 52)

theorem nearest_of_dvd {n : Nat} (h : 2 ^ (n.log2 - 52) ∣ n) : nearest n = n := by
  obtain ⟨k, hk⟩ := h
  have pos : 0 < 2 ^ (n.log2 - 52) := Nat.two_pow_pos _
  have whole : roundHalfEven n (2 ^ (n.log2 - 52)) = k := by
    refine roundHalfEven_of_near pos ?_
    have unit : ((2 ^ (n.log2 - 52) : Nat) : ℚ) ≠ 0 := by exact_mod_cast pos.ne'
    have ratio : (n : ℚ) / (2 ^ (n.log2 - 52) : Nat) = k := by
      rw [div_eq_iff unit, mul_comm]
      exact_mod_cast hk
    rw [ratio, sub_self, abs_zero]
    norm_num
  rw [nearest, whole, Nat.mul_comm]
  exact hk.symm

theorem nearest_pos {n : Nat} (pos : 0 < n) : 0 < nearest n := by
  have unit : 2 ^ (n.log2 - 52) ≤ n :=
    (Nat.pow_le_pow_right (by decide) (Nat.sub_le _ _)).trans (Nat.log2_self_le pos.ne')
  have upos : 0 < 2 ^ (n.log2 - 52) := Nat.two_pow_pos _
  refine Nat.mul_pos (le_roundHalfEven upos ?_) upos
  rw [Nat.cast_one, one_le_div (by exact_mod_cast upos)]
  exact_mod_cast unit

theorem ofRatio_nearest {n : Nat} (pos : 0 < n) (lt : n < 2 ^ 200) (s : Bool) :
    ∃ m e canonical, ofRatio s n 1 = .finite s m e canonical ∧ (m : ℚ) * 2 ^ e = nearest n := by
  rcases Nat.lt_or_ge n (2 ^ 53) with small | large
  · -- The unit is one, or less than one: nothing is rounded off.
    obtain ⟨m, canonical, eq, value⟩ := ofRatio_natural pos small s
    have short : n.log2 < 53 := (Nat.log2_lt pos.ne').2 small
    have unit : 2 ^ (n.log2 - 52) ∣ n := by
      rw [show n.log2 - 52 = 0 by omega]
      exact Nat.one_dvd n
    exact ⟨m, _, canonical, eq, by rw [value, nearest_of_dvd unit]⟩
  · have long : 53 ≤ n.log2 := (Nat.le_log2 pos.ne').2 large
    have top : n.log2 < 200 := (Nat.log2_lt pos.ne').2 lt
    have low : (2 : ℚ) ^ n.log2 ≤ n := by exact_mod_cast Nat.log2_self_le pos.ne'
    have high : (n : ℚ) < 2 ^ (n.log2 + 1) := by exact_mod_cast Nat.lt_log2_self
    have power : (2 : ℚ) ^ ((n.log2 : Int) - 52) = (2 ^ (n.log2 - 52) : Nat) := by
      rw [Nat.cast_pow, Nat.cast_ofNat, ← zpow_natCast]
      congr 1
      omega
    have unit : HasUnit ((n : ℚ) / (1 : Nat)) ((n.log2 : Int) - 52) := by
      rw [Nat.cast_one, div_one]
      refine ⟨by omega, ?_, .inr ?_⟩
      · rw [show (n.log2 : Int) - 52 + 53 = (n.log2 + 1 : Nat) by omega, zpow_natCast]
        exact high
      · rw [show (n.log2 : Int) - 52 + 52 = n.log2 by omega, zpow_natCast]
        exact low
    have inUnit : (n : ℚ) / (2 ^ (n.log2 - 52) : Nat) =
        n / (1 : Nat) / 2 ^ ((n.log2 : Int) - 52) := by
      rw [power, Nat.cast_one, div_one]
    obtain ⟨m, e, canonical, eq, value⟩ := exists_ofRatio_eq pos Nat.one_pos unit (by omega)
      (Nat.two_pow_pos _) inUnit s
    refine ⟨m, e, canonical, eq, ?_⟩
    rw [value, power, nearest, Nat.cast_mul]

theorem ofRatio_zero (s : Bool) (den : Nat) : ofRatio s 0 den = zero s := if_pos rfl

/-- A rational with its sign apart. -/
def signedRatio (negative : Bool) (num den : Nat) : ℚ := (if negative then -1 else 1) * (num / den)

theorem signedRatio_natAbs (k : Int) : signedRatio (decide (k < 0)) k.natAbs 1 = k := by
  unfold signedRatio
  rw [Nat.cast_natAbs, Nat.cast_one, div_one]
  by_cases neg : k < 0
  · rw [abs_of_neg neg, if_pos (decide_eq_true neg), Int.cast_neg, neg_one_mul, neg_neg]
  · rw [abs_of_nonneg (not_lt.1 neg), if_neg (mt of_decide_eq_true neg), one_mul]

theorem abs_signedRatio (negative : Bool) (num den : Nat) :
    |signedRatio negative num den| = num / den := by
  cases negative <;> simp [signedRatio, abs_div]

theorem signedRatio_neg_iff {negative : Bool} {num den : Nat} (hn : 0 < num) (hd : 0 < den) :
    signedRatio negative num den < 0 ↔ negative = true := by
  have pos : (0 : ℚ) < num / den := by positivity
  cases negative with
  | false => simpa [signedRatio] using pos.le
  | true => simpa [signedRatio] using pos

structure IsInt (x : Binary64) (k : Int) : Prop where
  finite : x.isFinite = true
  toRat : x.toRat = k

theorem isFinite_neg {x : Binary64} (hx : x.isFinite = true) : x.neg.isFinite = true := by
  cases x with
  | finite s m e canonical => rfl
  | infinite s => cases hx
  | nan => cases hx

theorem toRat_neg (x : Binary64) : x.neg.toRat = -x.toRat := by
  cases x with
  | finite s m e canonical => cases s <;> simp [neg, toRat]
  | infinite s => simp [neg, toRat]
  | nan => simp [neg, toRat]

theorem IsInt.neg {x : Binary64} {k : Int} (h : IsInt x k) : IsInt x.neg (-k) :=
  ⟨isFinite_neg h.finite, by rw [toRat_neg, h.toRat, Int.cast_neg]⟩

theorem isInt_ofInt {k : Int} (h : k.natAbs < 2 ^ 53) : IsInt (ofInt k) k := by
  by_cases zero : k = 0
  · subst zero
    refine ⟨rfl, ?_⟩
    simp [ofInt, ofRatio_zero, Binary64.zero, Binary64.toRat]
  · obtain ⟨m, canonical, eq, value⟩ :=
      ofRatio_natural (Int.natAbs_pos.2 zero) h (decide (k < 0))
    rw [ofInt, eq]
    refine ⟨rfl, ?_⟩
    have signed := signedRatio_natAbs k
    rw [signedRatio, Nat.cast_one, div_one] at signed
    rw [Binary64.toRat, value, signed]

theorem ofInt_natCast (n : Nat) : ofInt n = ofNat n := by
  have nonneg : ¬ ((n : Int) < 0) := by omega
  simp [ofInt, ofNat, nonneg]

theorem ofInt_inj {a b : Int} (ha : a.natAbs < 2 ^ 53) (hb : b.natAbs < 2 ^ 53)
    (h : ofInt a = ofInt b) : a = b := by
  have eq : (a : ℚ) = b := by rw [← (isInt_ofInt ha).toRat, h, (isInt_ofInt hb).toRat]
  exact_mod_cast eq

theorem signedUnits_le_iff {s t : Bool} {m n : Nat} {e f : Int} (hm : Canonical m e)
    (hn : Canonical n f) : signedUnits s m e (min e f) ≤ signedUnits t n f (min e f) ↔
      (finite s m e hm).toRat ≤ (finite t n f hn).toRat := by
  have pos : (0 : ℚ) < 2 ^ (-min e f) := by positivity
  rw [← mul_le_mul_iff_left₀ pos, ← signedUnits_eq s m hm (min_le_left e f),
    ← signedUnits_eq t n hn (min_le_right e f)]
  exact Int.cast_le.symm

theorem le_iff {x y : Binary64} (hx : x.isFinite = true) (hy : y.isFinite = true) :
    x.le y = true ↔ x.toRat ≤ y.toRat := by
  obtain ⟨s, m, e, hm, rfl⟩ := exists_eq_finite hx
  obtain ⟨t, n, f, hn, rfl⟩ := exists_eq_finite hy
  rw [← signedUnits_le_iff hm hn, ← compare_le_iff_le]
  simp only [le, compare?]
  cases compare (signedUnits s m e (min e f)) (signedUnits t n f (min e f)) <;> simp

theorem same_iff {x y : Binary64} (hx : x.isFinite = true) (hy : y.isFinite = true) :
    x.same y = true ↔ x.toRat = y.toRat := by
  obtain ⟨s, m, e, hm, rfl⟩ := exists_eq_finite hx
  obtain ⟨t, n, f, hn, rfl⟩ := exists_eq_finite hy
  have units : signedUnits s m e (min e f) = signedUnits t n f (min e f) ↔
      (finite s m e hm).toRat = (finite t n f hn).toRat := by
    rw [le_antisymm_iff, le_antisymm_iff, signedUnits_le_iff hm hn, min_comm e f,
      signedUnits_le_iff hn hm]
  rw [← units]
  simp [same, compare?]

theorem ofScaled_eq {num a b : Nat} {exp : Int} (hb : 0 < b)
    (h : (num : ℚ) * 2 ^ exp = a / b) (s : Bool) : ofScaled s num exp = ofRatio s a b := by
  unfold ofScaled
  split
  · next neg =>
    refine ofRatio_congr (Nat.two_pow_pos _) hb ?_ s
    rw [← h, two_zpow_of_neg neg, div_eq_mul_inv]
  · next nonneg =>
    refine ofRatio_congr Nat.one_pos hb ?_ s
    rw [← h, two_zpow_of_nonneg (not_lt.1 nonneg), Nat.cast_mul, Nat.pow_eq, Nat.cast_one, div_one]

theorem signedUnits_add (s t : Bool) (m n : Nat) {e f : Int} (hm : Canonical m e) (hn : Canonical n f) :
    ((signedUnits s m e (min e f) + signedUnits t n f (min e f) : Int) : ℚ) =
      ((finite s m e hm).toRat + (finite t n f hn).toRat) * 2 ^ (-min e f) := by
  rw [Int.cast_add, signedUnits_eq s m hm (min_le_left e f), signedUnits_eq t n hn (min_le_right e f),
    add_mul]

theorem signedUnits_add_eq_zero {s t : Bool} {m n : Nat} {e f : Int} {hm : Canonical m e} {hn : Canonical n f}
    (h : (finite s m e hm).toRat + (finite t n f hn).toRat = 0) :
    signedUnits s m e (min e f) + signedUnits t n f (min e f) = 0 := by
  have total := signedUnits_add s t m n hm hn
  rw [h, zero_mul] at total
  exact_mod_cast total

theorem add_eq {x y : Binary64} (hx : x.isFinite = true) (hy : y.isFinite = true) {negative : Bool}
    {num den : Nat} (hn : 0 < num) (hd : 0 < den)
    (h : x.toRat + y.toRat = signedRatio negative num den) : x + y = ofRatio negative num den := by
  obtain ⟨s, m, e, hm, rfl⟩ := exists_eq_finite hx
  obtain ⟨t, n, f, hn', rfl⟩ := exists_eq_finite hy
  have total := signedUnits_add s t m n hm hn'
  rw [h] at total
  have unit : (0 : ℚ) < 2 ^ (-min e f) := by positivity
  change (let sum := _; if sum = 0 then _ else _) = _
  dsimp only
  generalize signedUnits s m e (min e f) + signedUnits t n f (min e f) = sum at total
  have size : (sum.natAbs : ℚ) * 2 ^ min e f = num / den := by
    have cancel : (2 : ℚ) ^ (-min e f) * 2 ^ min e f = 1 := by
      rw [← zpow_add₀ (by norm_num), neg_add_cancel, zpow_zero]
    rw [Nat.cast_natAbs, Int.cast_abs, total, abs_mul, abs_signedRatio, abs_of_pos unit, mul_assoc,
      cancel, mul_one]
  have nonzero : sum ≠ 0 := by
    rintro rfl
    have pos : (0 : ℚ) < num / den := by positivity
    rw [Int.natAbs_zero, Nat.cast_zero, zero_mul] at size
    exact pos.ne size
  have sign : decide (sum < 0) = negative := by
    have negative_iff : sum < 0 ↔ negative = true := by
      rw [← @Int.cast_lt_zero ℚ, total, Rat.mul_neg_iff_of_pos_right unit,
        signedRatio_neg_iff hn hd]
    simp only [negative_iff, Bool.decide_eq_true]
  rw [if_neg nonzero, sign, ofScaled_eq hd size]

theorem isZero_add {x y : Binary64} (hx : x.isFinite = true) (hy : y.isFinite = true)
    (h : x.toRat + y.toRat = 0) : (x + y).isZero = true := by
  obtain ⟨s, m, e, hm, rfl⟩ := exists_eq_finite hx
  obtain ⟨t, n, f, hn, rfl⟩ := exists_eq_finite hy
  change Binary64.isZero (let sum := _; if sum = 0 then _ else _) = _
  dsimp only
  rw [if_pos (signedUnits_add_eq_zero h)]
  rfl

/-- A sum that comes to nothing is no negative zero if the second term is not negative. -/
theorem add_eq_zero {x : Binary64} (hx : x.isFinite = true) {n : Nat} {f : Int}
    {hn : Canonical n f} (h : x.toRat + (finite false n f hn).toRat = 0) :
    x + finite false n f hn = zero false := by
  obtain ⟨s, m, e, hm, rfl⟩ := exists_eq_finite hx
  change (let sum := _; if sum = 0 then zero (s && false) else _) = _
  dsimp only
  rw [if_pos (signedUnits_add_eq_zero h), Bool.and_false]

theorem mul_eq {s t : Bool} {m n num den : Nat} {e f : Int} {hm : Canonical m e}
    {hn : Canonical n f} (hd : 0 < den)
    (h : (m : ℚ) * 2 ^ e * (n * 2 ^ f) = num / den) :
    finite s m e hm * finite t n f hn = ofRatio (s != t) num den := by
  change ofScaled (s != t) (m * n) (e + f) = _
  refine ofScaled_eq hd ?_ _
  rw [← h, zpow_add₀ (by norm_num)]
  push_cast
  ring

theorem div_eq {s t : Bool} {m n num den : Nat} {e f : Int} {hm : Canonical m e}
    {hn : Canonical n f} (nonzero : n ≠ 0) (hd : 0 < den)
    (h : (m : ℚ) * 2 ^ e / (n * 2 ^ f) = num / den) :
    finite s m e hm / finite t n f hn = ofRatio (s != t) num den := by
  have pos : 0 < n := Nat.pos_of_ne_zero nonzero
  have ratio := inUnits_ratio m n (f - e)
  have upos := inUnits_pos m pos (f - e)
  change (if n = 0 then _ else ofRatio (s != t) (inUnits m n (f - e)).1 (inUnits m n (f - e)).2) = _
  rw [if_neg nonzero]
  generalize inUnits m n (f - e) = units at ratio upos
  refine ofRatio_congr upos hd ?_ _
  rw [ratio, ← h, zpow_sub₀ (by norm_num)]
  field_simp

theorem wholePart_spec (m : Nat) (e : Int) :
    ∃ whole rest one, wholePart m e = (whole, rest, one) ∧ rest < one ∧
      (m : ℚ) * 2 ^ e = whole + rest / one := by
  unfold wholePart
  split
  · next neg =>
    refine ⟨_, _, _, rfl, Nat.mod_lt _ (Nat.two_pow_pos _), ?_⟩
    have pos : (0 : ℚ) < (Nat.pow 2 e.natAbs : Nat) := by
      exact_mod_cast Nat.two_pow_pos e.natAbs
    have power : (2 : ℚ) ^ e = ((Nat.pow 2 e.natAbs : Nat) : ℚ)⁻¹ := two_zpow_of_neg neg
    have parts : ((Nat.pow 2 e.natAbs : Nat) : ℚ) * (m / Nat.pow 2 e.natAbs : Nat) +
        (m % Nat.pow 2 e.natAbs : Nat) = m := by exact_mod_cast Nat.div_add_mod m _
    rw [power, ← parts]
    field_simp
  · next nonneg =>
    refine ⟨_, _, _, rfl, Nat.one_pos, ?_⟩
    rw [two_zpow_of_nonneg (not_lt.1 nonneg), Nat.pow_eq, Nat.cast_mul]
    simp

theorem wholePart_eq {m n : Nat} {e : Int} (le : (n : ℚ) ≤ m * 2 ^ e)
    (lt : (m : ℚ) * 2 ^ e < n + 1) : (wholePart m e).1 = n := by
  obtain ⟨whole, rest, one, eq, small, value⟩ := wholePart_spec m e
  have pos : (0 : ℚ) < one := by exact_mod_cast Nat.zero_lt_of_lt small
  have fraction : (rest : ℚ) / one < 1 := by
    rw [div_lt_one pos]
    exact_mod_cast small
  have nonneg : (0 : ℚ) ≤ rest / one := by positivity
  have below : (n : ℚ) < whole + 1 := by linarith
  have above : (whole : ℚ) < n + 1 := by linarith
  have below' : n < whole + 1 := by exact_mod_cast below
  have above' : whole < n + 1 := by exact_mod_cast above
  rw [eq]
  exact Nat.le_antisymm (Nat.lt_succ_iff.1 above') (Nat.lt_succ_iff.1 below')

theorem floor_eq {m n : Nat} {e : Int} {h : Canonical m e} (le : (n : ℚ) ≤ m * 2 ^ e)
    (lt : (m : ℚ) * 2 ^ e < n + 1) : (finite false m e h).floor = ofNat n := by
  have whole := wholePart_eq le lt
  generalize hp : wholePart m e = parts at whole
  obtain ⟨w, r, one⟩ := parts
  simp only [floor, hp, Bool.false_eq_true, false_and, if_false]
  rw [ofNat, ← whole]

theorem truncToNat_eq {m n : Nat} {e : Int} {h : Canonical m e} (le : (n : ℚ) ≤ m * 2 ^ e)
    (lt : (m : ℚ) * 2 ^ e < n + 1) : (finite false m e h).truncToNat = n := wholePart_eq le lt

theorem round_eq {s : Bool} {m n : Nat} {e : Int} {h : Canonical m e}
    (value : (m : ℚ) * 2 ^ e = n) : (finite s m e h).round = ofRatio s n 1 := by
  have whole : (wholePart m e).1 = n :=
    wholePart_eq value.ge (by rw [value]; linarith)
  obtain ⟨w, r, one, eq, small, parts⟩ := wholePart_spec m e
  have pos : (0 : ℚ) < one := by exact_mod_cast Nat.zero_lt_of_lt small
  rw [eq] at whole
  obtain rfl : w = n := whole
  have none : r = 0 := by
    have : (r : ℚ) / one = 0 := by linarith
    have := (div_eq_zero_iff.1 this).resolve_right pos.ne'
    exact_mod_cast this
  have below : ¬ 2 * r ≥ one := by omega
  simp only [round, eq, if_neg below]

theorem isInt_ofNat {n : Nat} (lt : n < 2 ^ 53) : IsInt (ofNat n) n := by
  rw [← ofInt_natCast]
  exact isInt_ofInt (by omega)

theorem le_ofNat_iff {m n : Nat} (hm : m < 2 ^ 53) (hn : n < 2 ^ 53) :
    (ofNat m).le (ofNat n) = true ↔ m ≤ n := by
  rw [le_iff (isInt_ofNat hm).finite (isInt_ofNat hn).finite, (isInt_ofNat hm).toRat,
    (isInt_ofNat hn).toRat, Int.cast_natCast, Int.cast_natCast, Nat.cast_le]

theorem exists_ofNat_eq {n : Nat} (lt : n < 2 ^ 53) :
    ∃ m e canonical, ofNat n = .finite false m e canonical ∧ (m : ℚ) * 2 ^ e = n := by
  rcases Nat.eq_zero_or_pos n with rfl | pos
  · exact ⟨0, -1074, by decide, ofRatio_zero false 1, by norm_num⟩
  · obtain ⟨m, canonical, eq, value⟩ := ofRatio_natural pos lt false
    exact ⟨m, _, canonical, eq, value⟩

theorem mantissa_ne_zero {m n : Nat} {e : Int} (pos : 0 < n) (value : (m : ℚ) * 2 ^ e = n) :
    m ≠ 0 := by
  rintro rfl
  rw [Nat.cast_zero, zero_mul] at value
  exact pos.ne (by exact_mod_cast value)

theorem truncToNat_ofNat {n : Nat} (lt : n < 2 ^ 53) : (ofNat n).truncToNat = n := by
  obtain ⟨m, e, canonical, eq, value⟩ := exists_ofNat_eq lt
  rw [eq]
  exact truncToNat_eq value.ge (by linarith)

theorem signum_ofNat {n : Nat} (lt : n < 2 ^ 53) : (ofNat n).signum = ofInt 1 := by
  obtain ⟨m, e, canonical, eq, -⟩ := exists_ofNat_eq lt
  rw [eq, signum, if_neg Bool.false_ne_true]

theorem ofInt_add_ofNat {a : Int} {i : Nat} (ha : a.natAbs < 2 ^ 53) (hi : i < 2 ^ 53) :
    ofInt a + ofNat i = ofInt (a + i) := by
  have x := isInt_ofInt ha
  obtain ⟨m, e, canonical, eq, value⟩ := exists_ofNat_eq hi
  have y : (finite false m e canonical).toRat = i := by simp [toRat, value]
  rw [eq]
  by_cases zero : a + i = 0
  · have sum : (ofInt a).toRat + (finite false m e canonical).toRat = 0 := by
      rw [x.toRat, y]
      exact_mod_cast zero
    rw [add_eq_zero x.finite sum, zero]
    rfl
  · refine add_eq x.finite rfl (Int.natAbs_pos.2 zero) Nat.one_pos ?_
    rw [x.toRat, y, signedRatio_natAbs, Int.cast_add, Int.cast_natCast]

theorem ofInt_sub_ofInt {a b : Int} (ha : a.natAbs < 2 ^ 53) (hb : b.natAbs < 2 ^ 53)
    (lt : a < b) : ofInt b - ofInt a = ofNat (b - a).toNat := by
  have x := isInt_ofInt hb
  have y := isInt_ofInt ha
  have negated := y.neg
  change ofInt b + (ofInt a).neg = _
  refine add_eq x.finite negated.finite (by omega) Nat.one_pos ?_
  have difference : ((b - a).toNat : Int) = b - a := by omega
  have difference' : ((b - a).toNat : ℚ) = b - a := by
    exact_mod_cast congrArg (Int.cast : Int → ℚ) difference
  rw [x.toRat, negated.toRat, signedRatio, difference']
  simp
  ring

theorem floor_ofNat_add {n : Nat} {x : Binary64} (lt : n < 2 ^ 17) (hx : x.isFinite = true)
    (low : (2 : ℚ) ^ (-36 : Int) ≤ x.toRat) (high : x.toRat ≤ 1 / 2) :
    (ofNat n + x).floor = ofNat n := by
  have whole : IsInt (ofNat n) n := isInt_ofNat (by omega)
  have xpos : 0 < x.toRat := lt_of_lt_of_le (by positivity) low
  obtain ⟨q, hq⟩ : ∃ q : ℚ, q = n + x.toRat := ⟨_, rfl⟩
  have qpos : 0 < q := by
    rw [hq]
    positivity
  have bound : q < 2 ^ (18 : Int) := by
    have lt' : (n : ℚ) < 2 ^ 17 := by exact_mod_cast lt
    have top : (2 : ℚ) ^ (18 : Int) = 2 ^ 17 + 2 ^ 17 := by norm_num
    rw [hq, top]
    linarith
  have ratio : (q.num.toNat : ℚ) / q.den = q := by
    have top : ((q.num.toNat : Int) : ℚ) = q.num := by
      rw [Int.toNat_of_nonneg (Rat.num_pos.2 qpos).le]
    rw [← Int.cast_natCast, top, Rat.num_div_den]
  have npos : 0 < q.num.toNat := by
    have := Rat.num_pos.2 qpos
    omega
  -- Below `2^18` a sum is rounded by `2^-36` at most, too little to bring it under `n`.
  obtain ⟨m, e, canonical, eq, near⟩ := exists_ofRatio_near npos q.den_pos (ratio ▸ bound)
    (by norm_num) (by norm_num) false
  have sum : ofNat n + x = finite false m e canonical := by
    refine (add_eq whole.finite hx npos q.den_pos ?_).trans eq
    rw [whole.toRat, Int.cast_natCast, ← hq, signedRatio, ratio]
    simp
  have error : (2 : ℚ) ^ ((18 : Int) - 54) = 2 ^ (-36 : Int) := by norm_num
  have small : (2 : ℚ) ^ (-36 : Int) < 1 / 2 := by norm_num
  rw [ratio, abs_le, error] at near
  generalize (2 : ℚ) ^ (-36 : Int) = tiny at low near small
  rw [sum]
  exact floor_eq (by linarith) (by linarith)

theorem ofNat_mul_one {n : Nat} (lt : n < 2 ^ 53) : ofNat n * ofNat 1 = ofNat n := by
  obtain ⟨m, e, canonical, eq, value⟩ := exists_ofNat_eq lt
  obtain ⟨m', e', canonical', eq', value'⟩ :=
    exists_ofNat_eq (by norm_num : 1 < 2 ^ 53)
  have product : (m : ℚ) * 2 ^ e * (m' * 2 ^ e') = n / (1 : Nat) := by
    rw [value, value']
    simp
  calc
    ofNat n * ofNat 1 = finite false m e canonical * finite false m' e' canonical' := by
      rw [eq, eq']
    _ = ofRatio (false != false) n 1 := mul_eq Nat.one_pos product

theorem ofNat_div_ofNat {n d q : Nat} (hn : n < 2 ^ 53) (hd : d < 2 ^ 53) (pos : 0 < d)
    (h : n = q * d) : ofNat n / ofNat d = ofNat q := by
  obtain ⟨m, e, canonical, eq, value⟩ := exists_ofNat_eq hn
  obtain ⟨m', e', canonical', eq', value'⟩ := exists_ofNat_eq hd
  have dpos : (0 : ℚ) < d := by exact_mod_cast pos
  have quotient : (m : ℚ) * 2 ^ e / (m' * 2 ^ e') = q / (1 : Nat) := by
    rw [value, value', h, Nat.cast_mul, mul_div_assoc, div_self dpos.ne', Nat.cast_one, mul_one,
      div_one]
  calc
    ofNat n / ofNat d = finite false m e canonical / finite false m' e' canonical' := by
      rw [eq, eq']
    _ = ofRatio (false != false) q 1 := div_eq (mantissa_ne_zero pos value') Nat.one_pos quotient

end SettingsSweep.Binary64

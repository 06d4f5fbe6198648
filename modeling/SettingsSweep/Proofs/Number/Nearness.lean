import SettingsSweep.Proofs.Number.Decimal
import SettingsSweep.Proofs.Number.Operations

/-!
The rationals that are rounded to a number. They are an interval about it, half a unit to each side and a quarter of one
below a power of two, and the ends belong to it if the significand is even.
-/

set_option autoImplicit false

namespace SettingsSweep

namespace Binary64

def Between (closed : Bool) (low high q : ℚ) : Prop :=
  if closed then low ≤ q ∧ q ≤ high else low < q ∧ q < high

section

variable {closed : Bool} {low high p q r : ℚ}

theorem Between.of_lt (above : low < q) (below : q < high) : Between closed low high q := by
  cases closed
  · exact ⟨above, below⟩
  · exact ⟨above.le, below.le⟩

theorem Between.le (h : Between closed low high q) : low ≤ q ∧ q ≤ high := by
  cases closed
  · exact ⟨h.1.le, h.2.le⟩
  · exact h

theorem Between.mono {low' high' : ℚ} (h : Between closed low high q) (lower : low' ≤ low) (higher : high ≤ high') :
    Between closed low' high' q := by
  cases closed
  · exact ⟨lower.trans_lt h.1, h.2.trans_le higher⟩
  · exact ⟨lower.trans h.1, h.2.trans higher⟩

theorem Between.convex (hp : Between closed low high p) (hr : Between closed low high r) (above : p ≤ q)
    (below : q ≤ r) : Between closed low high q := by
  cases closed
  · exact ⟨hp.1.trans_le above, below.trans_lt hr.2⟩
  · exact ⟨hp.1.trans above, below.trans hr.2⟩

theorem between_mul_right_iff {unit : ℚ} (pos : 0 < unit) :
    Between closed (low * unit) (high * unit) (q * unit) ↔ Between closed low high q := by
  cases closed
  · exact and_congr (mul_lt_mul_iff_left₀ pos) (mul_lt_mul_iff_left₀ pos)
  · exact and_congr (mul_le_mul_iff_left₀ pos) (mul_le_mul_iff_left₀ pos)

end

/-- No integer is as near to the rational, or one other is and is odd. -/
def IsNearest (q : ℚ) (k : Nat) : Prop := Between (k % 2 = 0) (k - 1 / 2) (k + 1 / 2) q

theorem IsNearest.unique {q : ℚ} {k l : Nat} (hk : IsNearest q k) (hl : IsNearest q l) : k = l := by
  have below : ∀ {k l : Nat}, IsNearest q k → IsNearest q l → ¬ k < l := by
    intro k l hk hl lt
    have step : (k : ℚ) + 1 ≤ l := by exact_mod_cast lt
    have above := hk.le.2
    have under := hl.le.1
    -- The only room left is a tie between two neighbours, and not both of them are even.
    have tie : q = k + 1 / 2 := by linarith
    have next : l = k + 1 := by
      have next : (l : ℚ) = k + 1 := by linarith
      exact_mod_cast next
    unfold IsNearest Between at hk hl
    split at hk
    · next even =>
      rw [if_neg (by simp only [decide_eq_true_eq] at even ⊢; omega)] at hl
      linarith [hl.1]
    · linarith [hk.2]
  exact Nat.le_antisymm (not_lt.1 (below hl hk)) (not_lt.1 (below hk hl))

theorem isNearest_roundHalfEven {a b : Nat} (pos : 0 < b) : IsNearest (a / b) (roundHalfEven a b) := by
  have hb : (0 : ℚ) < b := by exact_mod_cast pos
  have whole : (b : ℚ) * (a / b : Nat) + (a % b : Nat) = a := by exact_mod_cast Nat.div_add_mod a b
  have split : (a : ℚ) / b = (a / b : Nat) + (a % b : Nat) / b := by
    rw [← whole]
    field_simp
  obtain ⟨low, high⟩ := abs_le.1 (abs_roundHalfEven_sub_le (a := a) pos)
  unfold IsNearest Between
  split
  · constructor <;> linarith
  · next odd =>
    have odd : roundHalfEven a b % 2 = 1 := by
      simp only [decide_eq_true_eq] at odd
      omega
    -- A tie is never rounded to an odd number.
    have untied : 2 * (a % b) ≠ b := by
      intro tie
      unfold roundHalfEven at odd
      dsimp only at odd
      split at odd
      · next up =>
        obtain above | ⟨-, odd'⟩ := up
        · omega
        · omega
      · next down => exact down (.inr ⟨tie, odd⟩)
    have half : ((a % b : Nat) : ℚ) / b ≠ 1 / 2 := by
      rw [Ne, div_eq_div_iff hb.ne' (by norm_num), one_mul, mul_comm]
      exact_mod_cast untied
    have rest : (0 : ℚ) ≤ (a % b : Nat) / b := by positivity
    rw [split] at low high ⊢
    rcases roundHalfEven_cases a b with ⟨eq, small⟩ | ⟨eq, large⟩
    · have small : ((a % b : Nat) : ℚ) / b < 1 / 2 := by
        refine lt_of_le_of_ne ?_ half
        rw [div_le_iff₀ hb]
        have : (2 : ℚ) * (a % b : Nat) ≤ b := by exact_mod_cast small
        linarith
      rw [eq]
      constructor <;> linarith
    · have large : (1 / 2 : ℚ) < (a % b : Nat) / b := by
        refine lt_of_le_of_ne ?_ half.symm
        rw [le_div_iff₀ hb]
        have : (b : ℚ) ≤ 2 * (a % b : Nat) := by exact_mod_cast large
        linarith
      have less : ((a % b : Nat) : ℚ) / b < 1 := by
        rw [div_lt_one hb]
        exact_mod_cast Nat.mod_lt a pos
      rw [eq]
      push_cast
      constructor <;> linarith

/-- The room below a significand: numbers below a power of two are twice as near. -/
def room (m : Nat) (e : Int) : ℚ := if m = 2 ^ 52 ∧ -1074 < e then 1 / 4 else 1 / 2

theorem room_pos (m : Nat) (e : Int) : 0 < room m e := by
  unfold room
  split <;> norm_num

theorem room_le (m : Nat) (e : Int) : room m e ≤ 1 / 2 := by
  unfold room
  split <;> norm_num

/-- The positive rationals that are rounded to `m · 2^e`. -/
def Near (m : Nat) (e : Int) (q : ℚ) : Prop :=
  Between (m % 2 = 0) ((m - room m e) * 2 ^ e) ((m + 1 / 2) * 2 ^ e) q

variable {m : Nat} {e : Int} {q : ℚ}

theorem near_self (m : Nat) (e : Int) : Near m e (m * 2 ^ e) := by
  have pos : (0 : ℚ) < 2 ^ e := by positivity
  refine (between_mul_right_iff pos).2 (.of_lt ?_ (by linarith))
  exact sub_lt_self _ (room_pos m e)

theorem Near.pos (h : Near m e q) (some : m ≠ 0) : 0 < q := by
  have size : (1 : ℚ) ≤ m := by exact_mod_cast Nat.pos_of_ne_zero some
  refine lt_of_lt_of_le (mul_pos ?_ (by positivity)) h.le.1
  linarith [room_le m e]

theorem near_iff_units : Near m e q ↔ Between (m % 2 = 0) (m - room m e) (m + 1 / 2) (q / 2 ^ e) := by
  have pos : (0 : ℚ) < 2 ^ e := by positivity
  rw [← between_mul_right_iff pos, div_mul_cancel₀ _ pos.ne']
  rfl

theorem unbounded_eq {num den : Nat} {e : Int} (hn : 0 < num) (hd : 0 < den) (unit : HasUnit ((num : ℚ) / den) e) :
    ∃ k, IsNearest ((num : ℚ) / den / 2 ^ e) k ∧ unbounded num den = k * 2 ^ e ∧ k ≤ 2 ^ 53 ∧
      (e = -1074 ∨ 2 ^ 52 ≤ k) := by
  obtain ⟨most, full⟩ := significand_bounds hd unit
  obtain rfl := (hasUnit_unitExponent hn hd).unique unit
  refine ⟨_, ?_, rfl, most, full⟩
  rw [← inUnits_ratio]
  exact isNearest_roundHalfEven (inUnits_pos num hd _)

theorem div_two_zpow (q : ℚ) (e : Int) : q / 2 ^ (e + 1) = q / 2 ^ e / 2 := by
  rw [zpow_add_one₀ (by norm_num), div_div]

theorem room_of_full (lt : -1074 < e) : room (2 ^ 52) e = 1 / 4 := if_pos ⟨rfl, lt⟩

theorem unbounded_of_near {num den : Nat} (hn : 0 < num) (hd : 0 < den) (canonical : Canonical m e)
    (near : Near m e ((num : ℚ) / den)) : unbounded num den = m * 2 ^ e := by
  obtain ⟨lt, least, -, full⟩ := canonical
  have size : (m : ℚ) + 1 ≤ 2 ^ 53 := by exact_mod_cast lt
  have unit : (0 : ℚ) < 2 ^ e := by positivity
  have units := near_iff_units.1 near
  have below : (num : ℚ) / den < 2 ^ (e + 53) := by
    rw [zpow_add₀ (by norm_num), mul_comm, ← div_lt_iff₀ unit]
    refine lt_of_lt_of_le (lt_of_le_of_lt units.le.2 ?_) (size.trans_eq (by norm_num))
    linarith
  by_cases same : e = -1074 ∨ (2 : ℚ) ^ (e + 52) ≤ num / den
  · obtain ⟨k, nearest, value, -, -⟩ := unbounded_eq hn hd ⟨least, below, same⟩
    rw [value, nearest.unique (units.mono (by linarith [room_le m e]) le_rfl)]
  · -- Below a power of two the unit is half as large, and the significand is rounded up to that power.
    rw [not_or, not_le] at same
    obtain ⟨above, small⟩ := same
    have full : (2 : ℚ) ^ 52 ≤ m := by exact_mod_cast full.resolve_right above
    have small : (num : ℚ) / den / 2 ^ e < 2 ^ 52 := by
      rw [div_lt_iff₀ unit]
      refine small.trans_eq ?_
      rw [zpow_add₀ (by norm_num), mul_comm]
      rfl
    have least : -1074 < e := lt_of_le_of_ne least (Ne.symm above)
    obtain rfl : m = 2 ^ 52 := by
      have top : (m : ℚ) < 2 ^ 52 + 1 := by linarith [units.le.1, room_le m e]
      have full : 2 ^ 52 ≤ m := by exact_mod_cast full
      have top : m < 2 ^ 52 + 1 := by exact_mod_cast top
      omega
    have low := units.le.1
    rw [room_of_full least] at low
    have double := div_two_zpow ((num : ℚ) / den) (e - 1)
    rw [sub_add_cancel] at double
    rw [double] at low small
    have half : (0 : ℚ) < 2 ^ (e - 1) := by positivity
    have unit : HasUnit ((num : ℚ) / den) (e - 1) := by
      refine ⟨by omega, ?_, .inr ?_⟩
      · rw [zpow_add₀ (by norm_num), mul_comm, ← div_lt_iff₀ half]
        refine lt_of_lt_of_eq (by linarith : _ < (2 : ℚ) ^ 53) (by norm_num)
      · rw [zpow_add₀ (by norm_num), mul_comm, ← le_div_iff₀ half]
        push_cast at low
        refine le_of_eq_of_le (by norm_num) (by linarith : (2 : ℚ) ^ 52 ≤ _)
    obtain ⟨k, nearest, value, -, -⟩ := unbounded_eq hn hd unit
    have even : IsNearest ((num : ℚ) / den / 2 ^ (e - 1)) (2 ^ 53) := by
      unfold IsNearest Between
      rw [if_pos (by norm_num)]
      push_cast at low ⊢
      constructor <;> linarith
    rw [value, nearest.unique even, zpow_sub_one₀ (by norm_num)]
    push_cast
    ring

theorem exponent_le {k : Nat} {f : Int} (lt : m < 2 ^ 53) (full : 2 ^ 52 ≤ k) (value : (k : ℚ) * 2 ^ f = m * 2 ^ e) :
    f ≤ e := by
  have low : (2 : ℚ) ^ (52 + f) < 2 ^ (53 + e) := by
    calc
      (2 : ℚ) ^ (52 + f) = (2 ^ 52 : Nat) * 2 ^ f := by rw [zpow_add₀ (by norm_num)]; norm_cast
      _ ≤ k * 2 ^ f := by gcongr
      _ = m * 2 ^ e := value
      _ < (2 ^ 53 : Nat) * 2 ^ e := by gcongr
      _ = 2 ^ (53 + e) := by rw [zpow_add₀ (by norm_num)]; norm_cast
  have := (zpow_lt_zpow_iff_right₀ (by norm_num : (1 : ℚ) < 2)).1 low
  omega

theorem near_of_unbounded {num den : Nat} (hn : 0 < num) (hd : 0 < den) (canonical : Canonical m e)
    (value : unbounded num den = m * 2 ^ e) : Near m e ((num : ℚ) / den) := by
  have lt := canonical.1
  have top := canonical.2.2.1
  have unit := hasUnit_unitExponent hn hd
  obtain ⟨k, nearest, eq, most, full⟩ := unbounded_eq hn hd unit
  generalize unitExponent num den = f at unit nearest eq full
  rw [near_iff_units]
  rcases Nat.eq_or_lt_of_le most with rfl | less
  · -- The significand was rounded up to the next power of two.
    have carried : ((2 ^ 52 : Nat) : ℚ) * 2 ^ (f + 1) = m * 2 ^ e := by
      rw [← value, eq, zpow_add_one₀ (by norm_num)]
      push_cast
      ring
    have canonical' : Canonical (2 ^ 52) (f + 1) :=
      ⟨by decide, by have := unit.least; omega, (exponent_le lt le_rfl carried).trans top, .inl le_rfl⟩
    obtain ⟨rfl, rfl⟩ := canonical'.eq_of_value_eq canonical carried
    obtain ⟨low, high⟩ := nearest.le
    unfold Between
    rw [if_pos (by norm_num), room_of_full (by have := unit.least; omega), div_two_zpow]
    push_cast at low high ⊢
    constructor <;> linarith
  · have canonical' : Canonical k f := by
      refine ⟨less, unit.least, ?_, full.symm⟩
      rcases full with least | full
      · omega
      · exact (exponent_le lt full (eq.symm.trans value)).trans top
    obtain ⟨rfl, rfl⟩ := canonical'.eq_of_value_eq canonical (eq.symm.trans value)
    by_cases power : k = 2 ^ 52 ∧ -1074 < f
    · obtain ⟨rfl, above⟩ := power
      have low := unit.le.resolve_left (by omega)
      rw [zpow_add₀ (by norm_num), mul_comm, ← le_div_iff₀ (by positivity)] at low
      obtain ⟨-, high⟩ := nearest.le
      unfold Between
      rw [if_pos (by norm_num), room_of_full above]
      refine ⟨?_, high⟩
      push_cast
      refine le_trans ?_ low
      norm_num
    · rw [room, if_neg power]
      exact nearest

/-- The rationals that are rounded to a number have its sign and are near to it. -/
theorem roundsTo_finite_iff {s : Bool} {canonical : Canonical m e} (some : m ≠ 0) :
    RoundsTo q (.finite s m e canonical) ↔ decide (q < 0) = s ∧ Near m e |q| := by
  have size : (0 : ℚ) < m * 2 ^ e := mul_pos (by exact_mod_cast Nat.pos_of_ne_zero some) (by positivity)
  constructor
  · rintro (⟨-, value, -⟩ | ⟨infinite, -⟩)
    · have whole : magnitude q = m * 2 ^ e := by rw [← abs_nearestTo, ← value, abs_toRat]
      have nonzero : q ≠ 0 := by
        rintro rfl
        rw [magnitude_zero] at whole
        exact size.ne whole
      refine ⟨?_, natAbs_num_div_den q ▸ near_of_unbounded (natAbs_num_pos nonzero) q.den_pos canonical whole⟩
      rw [toRat, nearestTo, whole] at value
      by_cases negative : q < 0
      · rw [if_pos negative] at value
        cases s with
        | true => exact decide_eq_true negative
        | false =>
          rw [if_neg Bool.false_ne_true] at value
          linarith
      · rw [if_neg negative] at value
        cases s with
        | true =>
          rw [if_pos rfl] at value
          linarith
        | false => exact decide_eq_false negative
    · cases infinite
  · rintro ⟨rfl, near⟩
    have nonzero : q ≠ 0 := abs_pos.1 (near.pos some)
    rw [← natAbs_num_div_den] at near
    have whole : magnitude q = m * 2 ^ e := unbounded_of_near (natAbs_num_pos nonzero) q.den_pos canonical near
    refine .inl ⟨rfl, ?_, ?_⟩
    · rw [toRat, nearestTo, whole]
      by_cases negative : q < 0 <;> simp [negative]
    · have self := roundsTo_self (x := .finite (decide (q < 0)) m e canonical) rfl
      obtain ⟨-, value, small⟩ | ⟨infinite, -⟩ := self
      · rwa [← value, abs_toRat, ← whole, ← abs_nearestTo] at small
      · cases infinite

theorem RoundsTo.eq {x y : Binary64} (hx : RoundsTo q x) (hy : RoundsTo q y) (finite : x.isFinite = true)
    (nonzero : x.isZero = false) : y = x := by
  have small := hx.resolve_right (by rintro ⟨rfl, -⟩; cases finite)
  have finite' : y.isFinite = true := by
    obtain ⟨finite', -⟩ | ⟨-, large⟩ := hy
    · exact finite'
    · exact absurd small.2.2 (not_lt.2 large)
  rcases toRat_inj finite' finite ((hy.toRat finite').trans (hx.toRat finite).symm) with same | ⟨-, zero⟩
  · exact same
  · rw [nonzero] at zero
    cases zero

end Binary64

theorem Decimal.toBinary64_eq_iff {d : Decimal} {s : Bool} {m : Nat} {e : Int} {canonical : Canonical m e} (some : m ≠ 0) :
    d.toBinary64 = .finite s m e canonical ↔ d.negative = s ∧ Binary64.Near m e |d.toRat| := by
  have self := roundsTo_toBinary64 d
  have sign (near : Binary64.Near m e |d.toRat|) : decide (d.toRat < 0) = d.negative := by
    have digits : d.digits ≠ 0 := by
      intro none
      have zero : |d.toRat| = 0 := by rw [abs_toRat, none, Nat.cast_zero, zero_mul]
      exact (near.pos some).ne' zero
    rw [Bool.eq_iff_iff, decide_eq_true_iff, toRat_neg_iff digits]
  constructor
  · intro read
    rw [read, Binary64.roundsTo_finite_iff some] at self
    exact ⟨(sign self.2).symm.trans self.1, self.2⟩
  · rintro ⟨rfl, near⟩
    exact ((Binary64.roundsTo_finite_iff some).2 ⟨sign near, near⟩).eq self rfl (by simpa [Binary64.isZero] using some)

end SettingsSweep

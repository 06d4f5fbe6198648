import SettingsSweep.Proofs.Number.Nearness

/-!
The fewest digits of a number. The search goes from coarse decimal grids to fine ones and stops at the first that has a
point near to the number; seventeen digits are enough, and no decimal that reads as the number has fewer.
-/

set_option autoImplicit false

namespace SettingsSweep.Binary64

variable {m n : Nat} {e k : Int}

theorem Interval.contains_iff {i : Interval} (pos : 0 < i.den) :
    i.contains n = true ↔ Between i.closed ((i.low : ℚ) / i.den) ((i.high : ℚ) / i.den) n := by
  have den : (0 : ℚ) < i.den := by exact_mod_cast pos
  rw [← between_mul_right_iff den, div_mul_cancel₀ _ den.ne', div_mul_cancel₀ _ den.ne', Interval.contains, Between]
  split
  · rw [Bool.and_eq_true, decide_eq_true_iff, decide_eq_true_iff]
    exact_mod_cast Iff.rfl
  · rw [Bool.and_eq_true, decide_eq_true_iff, decide_eq_true_iff]
    exact_mod_cast Iff.rfl

theorem Interval.contains_of_nearest? {i : Interval} {tie : Tie} (found : i.nearest? tie = some n) : i.contains n = true := by
  unfold Interval.nearest? at found
  grind

theorem Interval.nearest?_eq_none_iff {i : Interval} {tie : Tie} :
    i.nearest? tie = none ↔ i.contains (i.mid / i.den) = false ∧ i.contains (i.mid / i.den + 1) = false := by
  unfold Interval.nearest?
  grind

/-- The interval holds the rationals that are near to a number, in the given unit. -/
structure Interval.Shows (i : Interval) (m : Nat) (e : Int) (unit : ℚ) : Prop where
  den_pos : 0 < i.den
  closed : i.closed = decide (m % 2 = 0)
  low : (i.low : ℚ) / i.den = (m - room m e) * 2 ^ e / unit
  mid : (i.mid : ℚ) / i.den = m * 2 ^ e / unit
  high : (i.high : ℚ) / i.den = (m + 1 / 2) * 2 ^ e / unit

theorem interval_shows (some : m ≠ 0) (e : Int) : (interval m e).Shows m e 1 := by
  have quarter : (2 : ℚ) ^ e = 4 * 2 ^ (e - 2) := by
    rw [zpow_sub₀ (by norm_num)]
    norm_num
    ring
  have low : ((4 * m - (if m = Nat.pow 2 52 ∧ -1074 < e then 1 else 2) : Nat) : ℚ) = 4 * (m - room m e) := by
    unfold room
    rw [Nat.pow_eq]
    split
    · rw [Nat.cast_sub (by omega)]
      push_cast
      ring
    · rw [Nat.cast_sub (by omega)]
      push_cast
      ring
  unfold interval
  dsimp only
  split
  · next neg =>
    have power : (2 : ℚ) ^ (e - 2) = ((Nat.pow 2 (e - 2).natAbs : Nat) : ℚ)⁻¹ := two_zpow_of_neg neg
    have pos : 0 < Nat.pow 2 (e - 2).natAbs := Nat.two_pow_pos _
    generalize Nat.pow 2 (e - 2).natAbs = scale at power pos ⊢
    refine ⟨pos, rfl, ?_, ?_, ?_⟩
    all_goals
      rw [quarter, power, div_eq_mul_inv]
      push_cast [low]
      ring
  · next nonneg =>
    have power : (2 : ℚ) ^ (e - 2) = (Nat.pow 2 (e - 2).natAbs : Nat) := two_zpow_of_nonneg (not_lt.1 nonneg)
    generalize Nat.pow 2 (e - 2).natAbs = scale at power ⊢
    refine ⟨Nat.one_pos, rfl, ?_, ?_, ?_⟩
    all_goals
      rw [quarter, power, Nat.cast_mul, Nat.cast_one, div_one]
      push_cast [low]
      ring

namespace Interval.Shows

variable {i : Interval}

theorem inTens (h : i.Shows m e 1) (f : Int) : (i.inTens f).Shows m e (10 ^ f) := by
  obtain ⟨pos, closed, low, mid, high⟩ := h
  rw [div_one] at low mid high
  have ten : 0 < Nat.pow 10 f.natAbs := Nat.pow_pos (by decide)
  unfold Interval.inTens
  dsimp only
  split
  · next neg =>
    have power : (10 : ℚ) ^ f = ((Nat.pow 10 f.natAbs : Nat) : ℚ)⁻¹ := by
      rw [Nat.pow_eq, Nat.cast_pow, Nat.cast_ofNat, ← zpow_natCast, ← zpow_neg]
      congr 1
      omega
    refine ⟨pos, closed, ?_, ?_, ?_⟩
    · rw [power, div_inv_eq_mul, Nat.cast_mul, mul_div_right_comm, low]
    · rw [power, div_inv_eq_mul, Nat.cast_mul, mul_div_right_comm, mid]
    · rw [power, div_inv_eq_mul, Nat.cast_mul, mul_div_right_comm, high]
  · next nonneg =>
    have power : (10 : ℚ) ^ f = (Nat.pow 10 f.natAbs : Nat) := by
      rw [Nat.pow_eq, Nat.cast_pow, Nat.cast_ofNat, ← zpow_natCast]
      congr 1
      omega
    refine ⟨Nat.mul_pos pos ten, closed, ?_, ?_, ?_⟩
    · rw [power, Nat.cast_mul, ← div_div, low]
    · rw [power, Nat.cast_mul, ← div_div, mid]
    · rw [power, Nat.cast_mul, ← div_div, high]

variable {f : Int} {tie : Tie}

theorem contains_iff (h : i.Shows m e (10 ^ f)) : i.contains n = true ↔ Near m e (n * 10 ^ f) := by
  have unit : (0 : ℚ) < 10 ^ f := by positivity
  rw [Interval.contains_iff h.den_pos, h.closed, h.low, h.high, ← between_mul_right_iff unit, div_mul_cancel₀ _ unit.ne',
    div_mul_cancel₀ _ unit.ne', Near]

theorem near_of_nearest? (h : i.Shows m e (10 ^ f)) (found : i.nearest? tie = some n) : Near m e (n * 10 ^ f) :=
  h.contains_iff.1 (contains_of_nearest? found)

/-- If any point of the grid is near to the number, one of the two next to it is. -/
theorem nearest?_ne_none (h : i.Shows m e (10 ^ f)) (tie : Tie) (near : Near m e (n * 10 ^ f)) :
    i.nearest? tie ≠ none := by
  have unit : (0 : ℚ) < 10 ^ f := by positivity
  have den : (0 : ℚ) < i.den := by exact_mod_cast h.den_pos
  have self := near_self m e
  rw [← div_mul_cancel₀ ((m : ℚ) * 2 ^ e) unit.ne', ← h.mid] at self
  have below : ((i.mid / i.den : Nat) : ℚ) ≤ i.mid / i.den := by
    rw [le_div_iff₀ den]
    exact_mod_cast Nat.div_mul_le_self _ _
  have above : (i.mid : ℚ) / i.den ≤ (i.mid / i.den + 1 : Nat) := by
    rw [div_le_iff₀' den]
    exact_mod_cast (Nat.lt_mul_div_succ _ h.den_pos).le
  rw [ne_eq, nearest?_eq_none_iff, ← Bool.not_eq_true, ← Bool.not_eq_true, h.contains_iff, h.contains_iff]
  rintro ⟨no, no'⟩
  rcases Nat.lt_or_ge (i.mid / i.den) n with lt | le
  · have le : ((i.mid / i.den + 1 : Nat) : ℚ) ≤ n := by exact_mod_cast lt
    exact no' (Between.convex self near (mul_le_mul_of_nonneg_right above unit.le) (mul_le_mul_of_nonneg_right le unit.le))
  · have le : (n : ℚ) ≤ (i.mid / i.den : Nat) := by exact_mod_cast le
    exact no (Between.convex near self (mul_le_mul_of_nonneg_right le unit.le) (mul_le_mul_of_nonneg_right below unit.le))

end Interval.Shows

theorem Near.ne_zero (near : Near m e (n * 10 ^ k)) (some : m ≠ 0) : n ≠ 0 := by
  rintro rfl
  have pos := near.pos some
  rw [Nat.cast_zero, zero_mul] at pos
  exact lt_irrefl _ pos

theorem ten_zpow_close {a b : Nat} (low : 2 ^ a ≤ 10 ^ b) (high : 10 ^ b ≤ 2 ^ (a + 1)) (z : Int) :
    (2 : ℚ) ^ (a * z - z.natAbs) ≤ 10 ^ (b * z) ∧ (10 : ℚ) ^ (b * z) ≤ 2 ^ (a * z + z.natAbs) := by
  have up (w : Nat) : (2 : ℚ) ^ (a * w : Int) ≤ 10 ^ (b * w : Int) ∧ (10 : ℚ) ^ (b * w : Int) ≤ 2 ^ (a * w + w : Int) := by
    have lower : (2 ^ a) ^ w ≤ (10 ^ b) ^ w := Nat.pow_le_pow_left low w
    have upper : (10 ^ b) ^ w ≤ (2 ^ (a + 1)) ^ w := Nat.pow_le_pow_left high w
    rw [← pow_mul, ← pow_mul] at lower upper
    rw [Nat.add_one_mul] at upper
    exact ⟨by exact_mod_cast lower, by exact_mod_cast upper⟩
  obtain ⟨w, rfl | rfl⟩ := z.eq_nat_or_neg
  · obtain ⟨lower, upper⟩ := up w
    rw [Int.natAbs_natCast]
    exact ⟨le_trans (zpow_le_zpow_right₀ (by norm_num) (by omega)) lower, upper⟩
  · obtain ⟨lower, upper⟩ := up w
    rw [Int.natAbs_neg, Int.natAbs_natCast, mul_neg, mul_neg, ← neg_add', zpow_neg, zpow_neg]
    refine ⟨inv_anti₀ (by positivity) upper, (inv_anti₀ (by positivity) lower).trans ?_⟩
    rw [← zpow_neg]
    exact zpow_le_zpow_right₀ (by norm_num) (by omega)

/-- The power of ten that a power of two comes to, by the digits `0.30103` of its logarithm. -/
theorem ten_zpow_log {z t : Int} (h : z * 30103 / 100000 = t) (small : z.natAbs ≤ 100000) :
    (2 : ℚ) ^ (z - 1) < 10 ^ (t + 1) ∧ (10 : ℚ) ^ t ≤ 2 ^ (z + 1) := by
  have low : 2 ^ 100000 ≤ 10 ^ 30103 := by decide +kernel
  have high : 10 ^ 30103 ≤ 2 ^ (100000 + 1) := by decide +kernel
  obtain ⟨lower, upper⟩ := ten_zpow_close low high z
  have raise (base : ℚ) (i : Int) : (base ^ i) ^ 100000 = base ^ (i * (100000 : Nat)) := by rw [zpow_mul, zpow_natCast]
  constructor
  · refine lt_of_pow_lt_pow_left₀ 100000 (by positivity) ?_
    rw [raise, raise]
    calc
      (2 : ℚ) ^ ((z - 1) * (100000 : Nat)) ≤ 2 ^ ((100000 : Nat) * z - z.natAbs : Int) :=
        zpow_le_zpow_right₀ (by norm_num) (by omega)
      _ ≤ 10 ^ ((30103 : Nat) * z : Int) := lower
      _ < 10 ^ ((t + 1) * (100000 : Nat)) := zpow_lt_zpow_right₀ (by norm_num) (by omega)
  · refine le_of_pow_le_pow_left₀ (n := 100000) (by decide) (by positivity) ?_
    rw [raise, raise]
    calc
      (10 : ℚ) ^ (t * (100000 : Nat)) ≤ 10 ^ ((30103 : Nat) * z : Int) := zpow_le_zpow_right₀ (by norm_num) (by omega)
      _ ≤ 2 ^ ((100000 : Nat) * z + z.natAbs : Int) := upper
      _ ≤ 2 ^ ((z + 1) * (100000 : Nat)) := zpow_le_zpow_right₀ (by norm_num) (by omega)

theorem log2_le (canonical : Canonical m e) (some : m ≠ 0) : m.log2 ≤ 52 :=
  Nat.lt_succ_iff.1 ((Nat.log2_lt some).2 canonical.1)

/-- Nothing on the grid of the top exponent, or on a coarser one, is near to the number. -/
theorem not_near_of_top (canonical : Canonical m e) (some : m ≠ 0) (high : topExponent m e ≤ k) (n : Nat) :
    ¬ Near m e (n * 10 ^ k) := by
  intro near
  have size : (m : ℚ) + 1 ≤ 2 ^ (m.log2 + 1) := by exact_mod_cast Nat.lt_log2_self
  have log : m.log2 ≤ 52 := log2_le canonical some
  obtain ⟨-, least, most, -⟩ := canonical
  obtain ⟨below, -⟩ := ten_zpow_log (z := m.log2 + e + 2) rfl (by omega)
  have one : (1 : ℚ) ≤ n := by exact_mod_cast Nat.pos_of_ne_zero (near.ne_zero some)
  have reach : (n : ℚ) * 10 ^ k ≤ 2 ^ (m.log2 + e + 2 - 1) := by
    refine near.le.2.trans ?_
    calc
      ((m : ℚ) + 1 / 2) * 2 ^ e ≤ 2 ^ (m.log2 + 1) * 2 ^ e := by
        gcongr
        linarith
      _ = 2 ^ (m.log2 + e + 2 - 1) := by
        rw [← zpow_natCast, ← zpow_add₀ (by norm_num)]
        congr 1
        push_cast
        ring
  have beyond : (10 : ℚ) ^ ((m.log2 + e + 2) * 30103 / 100000 + 1) ≤ n * 10 ^ k := by
    refine (zpow_le_zpow_right₀ (by norm_num) high).trans ?_
    exact le_mul_of_one_le_left (by positivity) one
  linarith

/-- A grid finer than the rationals about the number are wide has a point among them. -/
theorem exists_near_of_fine (some : m ≠ 0) (fine : (10 : ℚ) ^ k < (room m e + 1 / 2) * 2 ^ e) :
    ∃ n : Nat, Near m e (n * 10 ^ k) := by
  have unit : (0 : ℚ) < 10 ^ k := by positivity
  have one : (1 : ℚ) ≤ m := by exact_mod_cast Nat.pos_of_ne_zero some
  have low : (0 : ℚ) ≤ (m - room m e) * 2 ^ e / 10 ^ k := by
    have := room_le m e
    have : (0 : ℚ) ≤ m - room m e := by linarith
    positivity
  refine ⟨⌊(m - room m e) * 2 ^ e / 10 ^ k⌋₊ + 1, .of_lt ?_ ?_⟩
  · rw [← div_lt_iff₀ unit]
    exact_mod_cast Nat.lt_floor_add_one _
  · have floor := Nat.floor_le low
    rw [le_div_iff₀ unit] at floor
    push_cast
    linarith

theorem exists_near_within (canonical : Canonical m e) (some : m ≠ 0) :
    ∃ n : Nat, Near m e (n * 10 ^ (topExponent m e - (23 : Nat))) := by
  refine exists_near_of_fine some ?_
  have log : m.log2 ≤ 52 := log2_le canonical some
  obtain ⟨-, least, most, -⟩ := canonical
  obtain ⟨-, above⟩ := ten_zpow_log (z := m.log2 + e + 2) rfl (by omega)
  have unit : (0 : ℚ) < 2 ^ e := by positivity
  have room : (1 : ℚ) / 4 ≤ room m e := by
    unfold Binary64.room
    split <;> norm_num
  calc
    (10 : ℚ) ^ (topExponent m e - (23 : Nat)) = 10 ^ ((m.log2 + e + 2) * 30103 / 100000) * 10 ^ (-22 : Int) := by
      rw [← zpow_add₀ (by norm_num), topExponent]
      congr 1
      push_cast
      ring
    _ ≤ 2 ^ (55 + e) * 10 ^ (-22 : Int) := by
      gcongr
      exact above.trans (zpow_le_zpow_right₀ (by norm_num) (by omega))
    _ = 2 ^ 55 / 10 ^ 22 * 2 ^ e := by
      rw [zpow_add₀ (by norm_num)]
      norm_num
      ring
    _ < (Binary64.room m e + 1 / 2) * 2 ^ e := by
      gcongr
      refine lt_of_lt_of_le (by norm_num : (2 : ℚ) ^ 55 / 10 ^ 22 < 1 / 4 + 1 / 2) ?_
      linarith

/-- A decimal that is near to a number, on the coarsest grid with such a decimal. -/
structure Shortest (m : Nat) (e : Int) (n : Nat) (k : Int) : Prop where
  near : Near m e (n * 10 ^ k)
  coarsest : ∀ (n' : Nat) (k' : Int), Near m e (n' * 10 ^ k') → k' ≤ k

theorem shortest_shortestDigits (tie : Tie) (canonical : Canonical m e) (some : m ≠ 0) :
    Shortest m e (shortestDigits tie m e).1 (shortestDigits tie m e).2 := by
  have shows (f : Int) : ((interval m e).inTens f).Shows m e (10 ^ f) := (interval_shows some e).inTens f
  unfold shortestDigits
  dsimp only
  cases found : (List.range 24).findSome? fun (i : Nat) =>
      (((interval m e).inTens (topExponent m e - i)).nearest? tie).map fun n => (n, topExponent m e - i) with
  | none =>
    obtain ⟨n, near⟩ := exists_near_within canonical some
    have missed := List.findSome?_eq_none_iff.1 found 23 (by decide)
    exact absurd (Option.map_eq_none_iff.1 missed) ((shows _).nearest?_ne_none tie near)
  | some decimal =>
    obtain ⟨before, i, after, split, hit, missed⟩ := List.findSome?_eq_some_iff.1 found
    obtain ⟨n, nearest, rfl⟩ := Option.map_eq_some_iff.1 hit
    refine ⟨(shows _).near_of_nearest? nearest, fun n' k' near => ?_⟩
    by_contra coarser
    rw [Option.getD_some] at coarser
    have reach : k' < topExponent m e := not_le.1 fun high => not_near_of_top canonical some high n' near
    obtain ⟨j, rfl⟩ : ∃ j : Nat, k' = topExponent m e - j := ⟨(topExponent m e - k').toNat, by omega⟩
    -- The grid comes before the one that was hit, so it was tried and missed.
    have earlier : j ∈ before := by
      have order := List.pairwise_lt_range (n := 24)
      have all : i ∈ List.range 24 ∧ (j ∈ List.range 24 → j ∈ before ++ i :: after) := by
        rw [split]
        exact ⟨by simp, id⟩
      have bound := List.mem_range.1 all.1
      rw [split, List.pairwise_append, List.pairwise_cons] at order
      rcases List.mem_append.1 (all.2 (List.mem_range.2 (by omega))) with first | last
      · exact first
      · rcases List.mem_cons.1 last with same | later
        · omega
        · have := order.2.1.1 j later
          omega
    exact absurd (Option.map_eq_none_iff.1 (missed j earlier)) ((shows _).nearest?_ne_none tie near)

namespace Shortest

variable (h : Shortest m e n k)
include h

theorem mod_ten : n % 10 ≠ 0 := by
  intro zero
  have tenth : ((n / 10 : Nat) : ℚ) * 10 ^ (k + 1) = n * 10 ^ k := by
    have whole : n = 10 * (n / 10) := by omega
    have whole : (n : ℚ) = 10 * (n / 10 : Nat) := by exact_mod_cast whole
    rw [zpow_add_one₀ (by norm_num), whole]
    ring
  have := h.coarsest (n / 10) (k + 1) (tenth ▸ h.near)
  omega

/-- Seventeen digits are enough, since the next coarser grid is wider than the rationals about the number. -/
theorem lt (canonical : Canonical m e) (some : m ≠ 0) : n < 10 ^ 17 := by
  have unit : (0 : ℚ) < 2 ^ e := by positivity
  have wide : (room m e + 1 / 2) * 2 ^ e ≤ 10 ^ (k + 1) := by
    by_contra fine
    obtain ⟨n', near⟩ := exists_near_of_fine some (not_le.1 fine)
    have := h.coarsest n' _ near
    omega
  have size : (m : ℚ) + 1 / 2 < 10 ^ 16 * (room m e + 1 / 2) := by
    unfold room
    split
    · next power =>
      rw [power.1]
      norm_num
    · have lt : (m : ℚ) + 1 ≤ 2 ^ 53 := by exact_mod_cast canonical.1
      norm_num at lt ⊢
      linarith
  by_contra large
  have large : ((10 ^ 17 : Nat) : ℚ) ≤ n := by exact_mod_cast not_lt.1 large
  have circle : ((10 ^ 17 : Nat) : ℚ) * 10 ^ k < (10 ^ 17 : Nat) * 10 ^ k := by
    calc
      ((10 ^ 17 : Nat) : ℚ) * 10 ^ k ≤ n * 10 ^ k := by gcongr
      _ ≤ (m + 1 / 2) * 2 ^ e := h.near.le.2
      _ < 10 ^ 16 * (room m e + 1 / 2) * 2 ^ e := by gcongr
      _ = 10 ^ 16 * ((room m e + 1 / 2) * 2 ^ e) := mul_assoc _ _ _
      _ ≤ 10 ^ 16 * 10 ^ (k + 1) := by gcongr
      _ = (10 ^ 17 : Nat) * 10 ^ k := by
        rw [zpow_add_one₀ (by norm_num)]
        push_cast
        ring
  exact lt_irrefl _ circle

theorem fewest (some : m ≠ 0) {n' : Nat} {k' : Int} (near : Near m e (n' * 10 ^ k')) {j : Nat} (few' : n' < 10 ^ j) :
    n < 10 ^ j := by
  by_contra large
  have large : ((10 ^ j : Nat) : ℚ) ≤ n := by exact_mod_cast not_lt.1 large
  have few : (n' : ℚ) ≤ (10 ^ j : Nat) := by exact_mod_cast few'.le
  -- The power of ten between the two decimals is near to the number as well, and on a coarser grid.
  have between : Near m e ((1 : Nat) * 10 ^ (k + j)) := by
    rw [zpow_add₀ (by norm_num), zpow_natCast, Nat.cast_one, one_mul, mul_comm]
    push_cast at few large
    refine near.convex h.near ?_ (by gcongr)
    exact mul_le_mul few (zpow_le_zpow_right₀ (by norm_num) (h.coarsest n' k' near)) (by positivity) (by positivity)
  have := h.coarsest 1 (k + j) between
  obtain rfl : j = 0 := by omega
  exact near.ne_zero some (by simpa using few')

end Shortest

end SettingsSweep.Binary64

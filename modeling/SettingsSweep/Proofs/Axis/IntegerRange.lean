import SettingsSweep.Proofs.Axis.RangeSpellings
import SettingsSweep.Proofs.Axis.Values
import SettingsSweep.Proofs.Number.Operations

/-!
A range of integers without a step or a count. Every integer between the bounds gives one value, the number nearest to
it. That number is the integer itself where 53 bits hold it, and two neighbours beyond can share one.
-/

set_option autoImplicit false

namespace SettingsSweep

namespace Binary64

theorem nearest_eq_iff {n : Nat} : nearest n = n ↔ 2 ^ (n.log2 - 52) ∣ n := by
  constructor
  · intro h
    exact ⟨roundHalfEven n (2 ^ (n.log2 - 52)), by rw [Nat.mul_comm]; exact h.symm⟩
  · exact nearest_of_dvd

variable {k l m : Int}

theorem ofInt_spec (nonzero : k ≠ 0) (h : k.natAbs < 2 ^ 200) :
    (ofInt k).isFinite = true ∧ (ofInt k).isZero = false ∧
      (ofInt k).toRat = (if decide (k < 0) then -1 else 1) * nearest k.natAbs := by
  have pos : 0 < k.natAbs := Int.natAbs_pos.2 nonzero
  obtain ⟨m, e, canonical, eq, value⟩ := ofRatio_nearest pos h (decide (k < 0))
  have shown : ofInt k = finite (decide (k < 0)) m e canonical := eq
  have visible : m ≠ 0 := mantissa_ne_zero (nearest_pos pos) value
  rw [shown]
  exact ⟨rfl, beq_false_of_ne visible, by rw [toRat, value]⟩

theorem isFinite_ofInt (h : k.natAbs < 2 ^ 200) : (ofInt k).isFinite = true := by
  by_cases zero : k = 0
  · rw [zero]
    rfl
  · exact (ofInt_spec zero h).1

theorem isInt_ofInt_iff (h : k.natAbs < 2 ^ 200) :
    IsInt (ofInt k) k ↔ 2 ^ (k.natAbs.log2 - 52) ∣ k.natAbs := by
  by_cases zero : k = 0
  · subst zero
    exact iff_of_true (isInt_ofInt (by decide)) (by decide)
  · obtain ⟨finite, -, value⟩ := ofInt_spec zero h
    have signed := signedRatio_natAbs k
    rw [signedRatio, Nat.cast_one, div_one] at signed
    rw [← nearest_eq_iff, ← @Nat.cast_inj ℚ]
    constructor
    · intro exact'
      have same := value.symm.trans (exact'.toRat.trans signed.symm)
      cases hs : decide (k < 0) <;> simpa [hs] using same
    · intro same
      exact ⟨finite, by rw [value, same, signed]⟩

theorem ofInt_eq_iff (hk : k.natAbs < 2 ^ 200) (hl : l.natAbs < 2 ^ 200) :
    ofInt k = ofInt l ↔ nearestTo k = nearestTo l := by
  have fk := isFinite_ofInt hk
  have fl := isFinite_ofInt hl
  rw [← (roundsTo_ofInt k).toRat fk, ← (roundsTo_ofInt l).toRat fl]
  refine ⟨fun h => by rw [h], fun h => ?_⟩
  rcases toRat_inj fk fl h with eq | ⟨zk, zl⟩
  · exact eq
  · -- No integer but zero gives a zero.
    have none : ∀ {i : Int}, i.natAbs < 2 ^ 200 → (ofInt i).isZero = true → i = 0 := by
      intro i hi zero
      by_contra nonzero
      rw [(ofInt_spec nonzero hi).2.1] at zero
      cases zero
    rw [none hk zk, none hl zl]

theorem ofInt_eq_of_between (hk : k.natAbs < 2 ^ 200) (hm : m.natAbs < 2 ^ 200) (low : k ≤ l)
    (high : l ≤ m) (h : ofInt k = ofInt m) : ofInt k = ofInt l := by
  have hl : l.natAbs < 2 ^ 200 := by omega
  rw [ofInt_eq_iff hk hm] at h
  rw [ofInt_eq_iff hk hl]
  refine le_antisymm (nearestTo_mono (by exact_mod_cast low)) ?_
  rw [h]
  exact nearestTo_mono (by exact_mod_cast high)

theorem key_ofInt (h : k.natAbs < 2 ^ 200) : (Scalar.number (ofInt k)).key = .number (ofInt k) := by
  by_cases zero : k = 0
  · rw [zero]
    rfl
  · rw [Scalar.key, (ofInt_spec zero h).2.1, if_neg Bool.false_ne_true]

end Binary64

open Binary64

namespace Expansion

variable {a b : Int}

theorem dvd_of_le {n : Nat} (h : n ≤ 2 ^ 53) : 2 ^ (n.log2 - 52) ∣ n := by
  rcases Nat.eq_or_lt_of_le h with rfl | lt
  · decide
  · have short : n.log2 < 53 := log2_lt_of_lt_two_pow (by decide) lt
    rw [show n.log2 - 52 = 0 by omega]
    exact Nat.one_dvd n

theorem lt_of_odd_of_dvd {n : Nat} (odd : n % 2 = 1) (h : 2 ^ (n.log2 - 52) ∣ n) : n < 2 ^ 53 := by
  by_contra large
  have long : 53 ≤ n.log2 := (Nat.le_log2 (by omega)).2 (not_lt.1 large)
  have even : 2 ^ 1 ∣ n := (Nat.pow_dvd_pow 2 (by omega)).trans h
  omega

theorem natAbs_le_of_neighbours {k : Int} (h : 2 ^ (k.natAbs.log2 - 52) ∣ k.natAbs)
    (h' : 2 ^ ((k + 1).natAbs.log2 - 52) ∣ (k + 1).natAbs) :
    k.natAbs ≤ 2 ^ 53 ∧ (k + 1).natAbs ≤ 2 ^ 53 := by
  rcases Nat.mod_two_eq_zero_or_one k.natAbs with even | odd
  · have := lt_of_odd_of_dvd (by omega) h'
    omega
  · have := lt_of_odd_of_dvd odd h
    omega

theorem isInt_run_iff (le : a ≤ b) (ha : a.natAbs < 2 ^ 200) (hb : b.natAbs < 2 ^ 200) :
    (∀ k ∈ run a b, IsInt (ofInt k) k) ↔
      a = b ∧ 2 ^ (a.natAbs.log2 - 52) ∣ a.natAbs ∨ a.natAbs ≤ 2 ^ 53 ∧ b.natAbs ≤ 2 ^ 53 := by
  have inRange : ∀ k, a ≤ k → k ≤ b → k.natAbs < 2 ^ 200 := by
    intro k low high
    omega
  constructor
  · intro h
    have held : ∀ k, a ≤ k → k ≤ b → 2 ^ (k.natAbs.log2 - 52) ∣ k.natAbs := fun k low high =>
      (isInt_ofInt_iff (inRange k low high)).1 (h k ((mem_run le).2 ⟨low, high⟩))
    rcases Int.le_iff_lt_or_eq.1 le with lt | eq
    · have first := natAbs_le_of_neighbours (held a le_rfl le) (held (a + 1) (by omega) lt)
      have last := natAbs_le_of_neighbours (held (b - 1) (by omega) (by omega))
        (by rw [sub_add_cancel]; exact held b le le_rfl)
      rw [sub_add_cancel] at last
      exact .inr ⟨first.1, last.2⟩
    · exact .inl ⟨eq, held a le_rfl le⟩
  · intro h k hk
    obtain ⟨low, high⟩ := (mem_run le).1 hk
    rw [isInt_ofInt_iff (inRange k low high)]
    rcases h with ⟨rfl, single⟩ | ⟨small, small'⟩
    · rwa [le_antisymm high low]
    · exact dvd_of_le (by omega)

theorem nodup_run (a b : Int) : (run a b).Nodup :=
  List.nodup_range.map fun i j h => by simpa using h

/-- The nearest numbers are all different if they are so for neighbours, since rounding keeps the order. -/
theorem nodup_map_ofInt_iff (le : a ≤ b) (ha : a.natAbs < 2 ^ 200) (hb : b.natAbs < 2 ^ 200) :
    ((run a b).map ofInt).Nodup ↔ ∀ k, a ≤ k → k < b → ofInt k ≠ ofInt (k + 1) := by
  rw [List.nodup_map_iff_inj_on (nodup_run a b)]
  constructor
  · intro apart k low high same
    have := apart k ((mem_run le).2 ⟨low, by omega⟩) (k + 1) ((mem_run le).2 ⟨by omega, by omega⟩) same
    omega
  · intro apart k hk l hl same
    obtain ⟨lowk, highk⟩ := (mem_run le).1 hk
    obtain ⟨lowl, highl⟩ := (mem_run le).1 hl
    rcases lt_trichotomy k l with lt | eq | lt
    · exact absurd (ofInt_eq_of_between (by omega) (by omega) (by omega) lt same) (apart k lowk (by omega))
    · exact eq
    · exact absurd (ofInt_eq_of_between (by omega) (by omega) (by omega) lt same.symm)
        (apart l lowl (by omega))

theorem distinct_run_iff (le : a ≤ b) (ha : a.natAbs < 2 ^ 200) (hb : b.natAbs < 2 ^ 200) :
    Scalar.distinct ((run a b).map fun k => .number (ofInt k)) = (run a b).map (fun k => .number (ofInt k)) ↔
      ∀ k, a ≤ k → k < b → ofInt k ≠ ofInt (k + 1) := by
  have keys : ((run a b).map fun k => Scalar.number (ofInt k)).map Scalar.key =
      ((run a b).map ofInt).map .number := by
    rw [List.map_map, List.map_map]
    refine List.map_congr_left fun k hk => ?_
    obtain ⟨low, high⟩ := (mem_run le).1 hk
    exact key_ofInt (by omega)
  rw [Scalar.distinct_eq_self_iff, keys, ← nodup_map_ofInt_iff le ha hb]
  exact List.nodup_map_iff fun x y h => Scalar.number.inj h

theorem int64?_bounds {numeral : Numeral} {k : Int} (h : numeral.int64? = some k) :
    -2 ^ 63 ≤ k ∧ k < 2 ^ 63 := by
  unfold Numeral.int64? at h
  dsimp only at h
  generalize Decimal.natOfDigits (Decimal.splitSign numeral).2 = n at h
  rw [show Nat.pow 2 63 = 2 ^ 63 from rfl] at h
  split at h
  · split at h
    · split at h
      · cases h
        omega
      · cases h
    · split at h
      · cases h
        omega
      · cases h
  · cases h

theorem integers_accepted (h : (integers a b).problem = none) : a ≤ b ∧ b - a < 100000 := by
  unfold integers at h
  split at h
  · cases h
  · next forward =>
    split at h
    · cases h
    · next short => exact ⟨not_lt.1 forward, not_le.1 short⟩

theorem ofForm_integers_accepted {start stop : Numeral}
    (h : (ofForm (.integers start stop)).problem = none) :
    ∃ a b, start.int64? = some a ∧ stop.int64? = some b ∧ a ≤ b ∧ b - a < 100000 := by
  cases ha : start.int64? with
  | none =>
    simp only [ofForm, ha] at h
    cases h
  | some a =>
    cases hb : stop.int64? with
    | none =>
      simp only [ofForm, ha, hb] at h
      cases h
    | some b =>
      simp only [ofForm, ha, hb] at h
      exact ⟨a, b, rfl, rfl, integers_accepted h⟩

theorem ofForm_integers_values {start stop : Numeral} (ha : start.int64? = some a)
    (hb : stop.int64? = some b) (le : a ≤ b) (short : b - a < 100000) :
    (ofForm (.integers start stop)).values = (run a b).map fun k => .number (ofInt k) := by
  simp only [ofForm, ha, hb, integers_eq le short]

end Expansion

namespace Axis

theorem contributed_of_single {axis : Axis} {catalog : Catalog} {text : String}
    (rows : axis.expressions = [text]) (numeric : catalog.classify axis.path = .numeric) :
    axis.contributed catalog = (Row.ofText text).values := by
  unfold contributed contributions
  rw [numeric, rows]
  exact List.append_nil _

end Axis

namespace Row

open Expansion (run)

/-- An accepted range of integers has one value for each integer, in order, and each is the nearest number. All are the
    integers themselves only if 53 bits hold them; an axis keeps all of them if no two neighbours share a number. -/
theorem integer_range_exact_iff {text : String} {start stop : Numeral}
    (form : RangeForm.ofText? (Text.trimChars text.toList) = some (.integers start stop))
    (accepted : (ofText text).warning = none) :
    ∃ a b : Int, start.int64? = some a ∧ stop.int64? = some b ∧
      -2 ^ 63 ≤ a ∧ a ≤ b ∧ b < 2 ^ 63 ∧ b - a < 100000 ∧
      (ofText text).values = (List.range (b - a + 1).toNat).map (fun i : Nat => .number (.ofInt (a + i))) ∧
      (∀ k, a ≤ k → k ≤ b → (Binary64.ofInt k).isFinite = true) ∧
      ((∀ k, a ≤ k → k ≤ b → IsInt (.ofInt k) k) ↔
        a = b ∧ 2 ^ (a.natAbs.log2 - 52) ∣ a.natAbs ∨ a.natAbs ≤ 2 ^ 53 ∧ b.natAbs ≤ 2 ^ 53) ∧
      ∀ (axis : Axis) (catalog : Catalog), axis.hasField = true → axis.expressions = [text] →
        catalog.classify axis.path = .numeric →
          ((axis.resolve catalog).values = (ofText text).values ↔
            ∀ k, a ≤ k → k < b → Binary64.ofInt k ≠ Binary64.ofInt (k + 1)) ∧
          ((∀ k, a ≤ k → k ≤ b → IsInt (.ofInt k) k) →
            (axis.resolve catalog).values = (ofText text).values) := by
  have problem : (Expansion.ofForm (.integers start stop)).problem = none := by
    rw [ofText_of_form form] at accepted
    exact Option.map_eq_none_iff.1 accepted
  obtain ⟨a, b, ha, hb, le, short⟩ := Expansion.ofForm_integers_accepted problem
  obtain ⟨least, -⟩ := Expansion.int64?_bounds ha
  obtain ⟨-, most⟩ := Expansion.int64?_bounds hb
  have smallA : a.natAbs < 2 ^ 200 := by omega
  have smallB : b.natAbs < 2 ^ 200 := by omega
  have values : (ofText text).values = (run a b).map fun k => .number (.ofInt k) := by
    rw [ofText_of_form form]
    exact Expansion.ofForm_integers_values ha hb le short
  have exact' := Expansion.isInt_run_iff le smallA smallB
  simp only [Expansion.mem_run le, and_imp] at exact'
  refine ⟨a, b, ha, hb, least, le, most, short, ?_, fun k low high => isFinite_ofInt (by omega), exact', ?_⟩
  · have count : (b - a).toNat + 1 = (b - a + 1).toNat := by omega
    rw [values, run, List.map_map, count]
    rfl
  · intro axis catalog field rows numeric
    have kept : (axis.resolve catalog).values = (ofText text).values ↔
        ∀ k, a ≤ k → k < b → Binary64.ofInt k ≠ Binary64.ofInt (k + 1) := by
      rw [Axis.resolve_values field, Axis.contributed_of_single rows numeric, values]
      exact Expansion.distinct_run_iff le smallA smallB
    refine ⟨kept, fun all => kept.2 fun k low high same => ?_⟩
    have shown := (all k low high.le).toRat
    rw [same, (all (k + 1) (by omega) high).toRat] at shown
    have : k + 1 = k := by exact_mod_cast shown
    omega

theorem integer_range_exact_iff_seed :
    (Axis.resolve ⟨.x, "seed", true, ["-2-1"], [], .append⟩ {}).values =
      [.number (.ofInt (-2)), .number (.ofInt (-1)), .number (.ofInt 0), .number (.ofInt 1)] := by
  obtain ⟨a, b, ha, hb, -, -, -, -, values, -, exact', kept⟩ :=
    integer_range_exact_iff (show RangeForm.ofText? (Text.trimChars "-2-1".toList) =
      some (.integers ['-', '2'] ['1']) by decide) (by decide +kernel)
  obtain rfl : a = -2 := (Option.some.inj ha).symm
  obtain rfl : b = 1 := (Option.some.inj hb).symm
  rw [(kept _ {} (by decide) rfl (by decide)).2 (exact'.2 (.inr (by decide))), values]
  rfl

/-- Two neighbours beyond `2^53` with one number: the second value is not its integer, and the axis drops it. -/
theorem integer_range_collapses :
    (ofText "9007199254740992-9007199254740993").warning = none ∧
      (ofText "9007199254740992-9007199254740993").values =
        [.number (.ofInt 9007199254740992), .number (.ofInt 9007199254740992)] ∧
      ¬ IsInt (.ofInt 9007199254740992) 9007199254740993 ∧
      (Axis.resolve ⟨.x, "seed", true, ["9007199254740992-9007199254740993"], [], .append⟩ {}).values =
        [.number (.ofInt 9007199254740992)] := by
  have shared : Binary64.ofInt 9007199254740993 = .ofInt 9007199254740992 := by decide +kernel
  refine ⟨by decide +kernel, by decide +kernel, fun h => ?_, ?_⟩
  · rw [← shared, isInt_ofInt_iff (by decide)] at h
    exact absurd h (by decide +kernel)
  · rw [Axis.resolve_values (by decide)]
    decide +kernel

end Row

end SettingsSweep

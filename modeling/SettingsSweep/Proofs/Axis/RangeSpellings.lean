import SettingsSweep.Proofs.Axis.RangeText
import SettingsSweep.Proofs.Axis.TenPlaces

/-!
The three ways to write all integers between two bounds: the bounds alone, with the step one, and with the
count. Only the first gives the integers as they are; the other two give them to ten decimal places.
-/

set_option autoImplicit false

namespace SettingsSweep

open Binary64

namespace Expansion

def run (a b : Int) : List Int := (List.range ((b - a).toNat + 1)).map fun i : Nat => a + i

theorem mem_run {a b k : Int} (le : a ≤ b) : k ∈ run a b ↔ a ≤ k ∧ k ≤ b := by
  unfold run
  rw [List.mem_map]
  constructor
  · rintro ⟨i, hi, rfl⟩
    have := List.mem_range.1 hi
    omega
  · rintro ⟨low, high⟩
    exact ⟨(k - a).toNat, List.mem_range.2 (by omega), by omega⟩

theorem integers_eq {a b : Int} (le : a ≤ b) (short : b - a < 100000) :
    integers a b = ⟨(run a b).map fun k => .number (.ofInt k), none⟩ := by
  have few : ¬ ((maxValues : Int) ≤ b - a) := not_le.2 short
  unfold integers run
  rw [if_neg (not_lt.2 le), if_neg few, List.map_map]
  rfl

theorem progression_eq {a b : Int} (le : a ≤ b) (ha : a.natAbs < 2 ^ 53)
    (short : b - a < 100000) :
    progression (.ofInt a) (.ofNat 1) ((b - a).toNat + 1) =
      (run a b).map fun k => point (.ofInt k) := by
  unfold progression run
  rw [List.map_map]
  refine List.map_congr_left fun i hi => ?_
  have small : i < 2 ^ 53 := by
    have := List.mem_range.1 hi
    omega
  change point (Binary64.ofInt a + Binary64.ofNat i * Binary64.ofNat 1) = _
  rw [ofNat_mul_one small, ofInt_add_ofNat ha small]
  rfl

theorem run_self (a : Int) : run a a = [a] := by simp [run]

theorem counted_eq {a b : Int} (le : a ≤ b) (ha : a.natAbs < 2 ^ 53) (hb : b.natAbs < 2 ^ 53)
    (short : b - a < 100000) :
    counted (.ofInt a) (.ofInt b) ((b - a).toNat + 1) =
      ⟨(run a b).map fun k => point (.ofInt k), none⟩ := by
  rcases Int.le_iff_lt_or_eq.1 le with lt | rfl
  · have few : ¬ maxValues < (b - a).toNat + 1 := by
      unfold maxValues
      omega
    have width : ofInt b - ofInt a = ofNat (b - a).toNat := ofInt_sub_ofInt ha hb lt
    have one : ofNat (b - a).toNat / ofNat (b - a).toNat = ofNat 1 :=
      ofNat_div_ofNat (by omega) (by omega) (by omega) (Nat.one_mul _).symm
    unfold counted
    rw [if_neg (by omega), if_neg (by omega), if_neg few, Nat.add_sub_cancel, width, one,
      progression_eq le ha short]
  · rw [run_self, Int.sub_self]
    rfl

theorem tolerance_eq : tolerance = .finite false 4835703278458517 (-82) (by decide) := by
  decide +kernel

/-- The number of unit steps in a range comes out exactly, tolerance and all. -/
theorem floor_width {d : Nat} (lt : d < 100000) :
    (ofNat d / ofNat 1 + tolerance).floor = ofNat d := by
  have one : ofNat d / ofNat 1 = ofNat d :=
    ofNat_div_ofNat (by omega) (by decide) Nat.one_pos (Nat.mul_one d).symm
  rw [one, tolerance_eq]
  refine floor_ofNat_add (by omega) rfl ?_ ?_ <;> norm_num [toRat]

theorem stepped_eq {a b : Int} (le : a ≤ b) (ha : a.natAbs < 2 ^ 53) (hb : b.natAbs < 2 ^ 53)
    (short : b - a < 100000) :
    stepped (.ofInt a) (.ofInt b) (.ofNat 1) =
      ⟨(run a b).map fun k => point (.ofInt k), none⟩ := by
  have nonzero : ¬ (ofNat 1).isZero = true := by decide +kernel
  have same : (ofInt a).same (ofInt b) = true ↔ a = b := by
    rw [same_iff (isInt_ofInt ha).finite (isInt_ofInt hb).finite, (isInt_ofInt ha).toRat,
      (isInt_ofInt hb).toRat, Int.cast_inj]
  unfold stepped
  rw [if_neg nonzero]
  rcases Int.le_iff_lt_or_eq.1 le with lt | rfl
  · obtain ⟨d, hd⟩ : ∃ d, d = (b - a).toNat := ⟨_, rfl⟩
    have few : d < 100000 := by omega
    have inRange : d < 2 ^ 53 := by omega
    have width : ofInt b - ofInt a = ofNat d := hd ▸ ofInt_sub_ofInt ha hb lt
    have forward : (ofNat d).signum.same (ofNat 1).signum = true := by
      rw [signum_ofNat inRange, signum_ofNat (by decide)]
      decide +kernel
    have bounded : (ofNat maxValues).le (ofNat d) = false := by
      rw [← Bool.not_eq_true, le_ofNat_iff (by decide) inRange]
      exact Nat.not_le.2 few
    rw [if_neg (fun h => lt.ne (same.1 h)), width, forward]
    simp only [floor_width few, (isInt_ofNat inRange).finite, bounded, truncToNat_ofNat inRange]
    rw [hd, progression_eq le ha short]
    rfl
  · rw [if_pos (same.2 rfl), run_self]
    rfl

/-- In place of its integers a range gives their ten decimal places, so it gives the integers if and only
    if these are kept. -/
theorem map_point_eq_iff {a b : Int} (le : a ≤ b) (ha : a.natAbs < 2 ^ 53)
    (hb : b.natAbs < 2 ^ 53) :
    (run a b).map (fun k => point (.ofInt k)) = (run a b).map (fun k => .number (.ofInt k)) ↔
      ∀ k, a ≤ k → k ≤ b → Kept k.natAbs := by
  rw [List.map_inj_left]
  constructor
  · intro h k low high
    have inRange : k.natAbs < 2 ^ 53 := by omega
    have eq := h k ((mem_run le).2 ⟨low, high⟩)
    exact (tenPlaces_ofInt_eq_iff inRange).1 (Scalar.number.inj eq)
  · intro h k hk
    obtain ⟨low, high⟩ := (mem_run le).1 hk
    have inRange : k.natAbs < 2 ^ 53 := by omega
    exact congrArg Scalar.number ((tenPlaces_ofInt_eq_iff inRange).2 (h k low high))

end Expansion

def plainRange (a b : Int) : String := toString a ++ "-" ++ toString b

def unitRange (a b : Int) : String := plainRange a b ++ " (+1)"

def countedRange (a b : Int) : String := plainRange a b ++ " [" ++ toString (b - a + 1) ++ "]"

namespace Row

open Expansion (run point)

theorem toList_plainRange (a b : Int) : (plainRange a b).toList = RangeForm.written a b [] := by
  rw [plainRange, String.toList_append, String.toList_append, Numeral.toList_toString,
    Numeral.toList_toString]
  simp [RangeForm.written]

theorem toList_unitRange (a b : Int) :
    (unitRange a b).toList = RangeForm.written a b " (+1)".toList := by
  rw [unitRange, String.toList_append, toList_plainRange]
  simp [RangeForm.written]

theorem toList_countedRange {a b : Int} (le : a ≤ b) : (countedRange a b).toList =
    RangeForm.written a b (' ' :: '[' :: (Nat.toDigits 10 ((b - a).toNat + 1) ++ [']'])) := by
  have count : (toString (b - a + 1)).toList = Nat.toDigits 10 ((b - a).toNat + 1) := by
    rw [Numeral.toList_toString, ← Numeral.ofInt_natCast]
    congr 1
    omega
  rw [countedRange, String.toList_append, String.toList_append, String.toList_append,
    toList_plainRange, count]
  simp [RangeForm.written]

theorem ofText_plainRange {a b : Int} (le : a ≤ b) (ha : a.natAbs < 2 ^ 53)
    (hb : b.natAbs < 2 ^ 53) (short : b - a < 100000) :
    ofText (plainRange a b) = ⟨(run a b).map fun k => .number (.ofInt k), none⟩ := by
  rw [ofText_written (toList_plainRange a b) .bare, RangeForm.form_integers, Expansion.ofForm,
    Numeral.int64?_ofInt (by omega), Numeral.int64?_ofInt (by omega)]
  simp only [Expansion.integers_eq le short]
  rfl

theorem ofText_unitRange {a b : Int} (le : a ≤ b) (ha : a.natAbs < 2 ^ 53)
    (hb : b.natAbs < 2 ^ 53) (short : b - a < 100000) :
    ofText (unitRange a b) = ⟨(run a b).map fun k => point (.ofInt k), none⟩ := by
  have one : Numeral.value ['1'] = .ofNat 1 := Numeral.value_ofInt 1
  have step : (RangeTail.stepped false ['1']).Spells " (+1)".toList :=
    .stepped true (a := [' ']) (b := []) (c := []) (d := []) (e := []) (.whole (by decide) (by decide))
      rfl rfl rfl rfl rfl
  rw [ofText_written (toList_unitRange a b) step, RangeParts.form, Expansion.ofForm, Numeral.value_ofInt,
    Numeral.value_ofInt, one, if_neg Bool.false_ne_true, Expansion.stepped_eq le ha hb short]
  rfl

theorem ofText_countedRange {a b : Int} (le : a ≤ b) (ha : a.natAbs < 2 ^ 53)
    (hb : b.natAbs < 2 ^ 53) (short : b - a < 100000) :
    ofText (countedRange a b) = ⟨(run a b).map fun k => point (.ofInt k), none⟩ := by
  have count : (RangeTail.counted (Nat.toDigits 10 ((b - a).toNat + 1))).Spells
      (' ' :: '[' :: (Nat.toDigits 10 ((b - a).toNat + 1) ++ [']'])) :=
    .counted (a := [' ']) (b := []) (c := []) Nat.toDigits_ne_nil (Numeral.all_isDigit_script_toDigits _)
      rfl rfl rfl
  rw [ofText_written (toList_countedRange le) count, RangeParts.form, Expansion.ofForm,
    Numeral.count?_toDigits (by omega), Numeral.value_ofInt, Numeral.value_ofInt]
  simp only [Expansion.counted_eq le ha hb short]
  rfl

/-- The three spellings of one integer range: none warns, the last two agree, and they agree with the first
    if and only if ten decimal places keep every integer of the range, as they do below `922337205`. -/
theorem integer_range_spellings {a b : Int} (le : a ≤ b) (ha : a.natAbs ≤ 2 ^ 53 - 1)
    (hb : b.natAbs ≤ 2 ^ 53 - 1) (short : b - a < 100000) :
    (ofText (plainRange a b)).warning = none ∧ (ofText (unitRange a b)).warning = none ∧
      (ofText (countedRange a b)).warning = none ∧
      (ofText (plainRange a b)).values =
        (List.range (b - a + 1).toNat).map (fun i : Nat => .number (.ofInt (a + i))) ∧
      (ofText (unitRange a b)).values = (ofText (countedRange a b)).values ∧
      ((ofText (unitRange a b)).values = (ofText (plainRange a b)).values ↔
        ∀ k, a ≤ k → k ≤ b → Expansion.Kept k.natAbs) ∧
      (a.natAbs ≤ 922337204 → b.natAbs ≤ 922337204 →
        (ofText (unitRange a b)).values = (ofText (plainRange a b)).values) := by
  have ha' : a.natAbs < 2 ^ 53 := by omega
  have hb' : b.natAbs < 2 ^ 53 := by omega
  rw [ofText_plainRange le ha' hb' short, ofText_unitRange le ha' hb' short,
    ofText_countedRange le ha' hb' short]
  have exact' := Expansion.map_point_eq_iff le ha' hb'
  refine ⟨rfl, rfl, rfl, ?_, rfl, exact', fun small small' => ?_⟩
  · have count : (b - a).toNat + 1 = (b - a + 1).toNat := by omega
    change (run a b).map _ = _
    rw [run, List.map_map, count]
    rfl
  · exact exact'.2 fun k low high => Expansion.kept_of_le (by omega)

theorem integer_range_spellings_seven : (-3 : Int) ≤ 3 ∧
    (ofText "-3-3 (+1)").values = (ofText "-3-3").values :=
  ⟨by decide, (integer_range_spellings (show (-3 : Int) ≤ 3 by decide) (by decide) (by decide)
    (by decide)).2.2.2.2.2.2 (by decide) (by decide)⟩

/-- The least integers that are not kept: rounding moves the first of them. -/
theorem integer_range_spellings_differ :
    (ofText "922337205-922337206").values ≠ (ofText "922337205-922337206 (+1)").values ∧
      (ofText "922337205-922337206").values ≠ (ofText "922337205-922337206 [2]").values := by
  decide +kernel

end Row

end SettingsSweep

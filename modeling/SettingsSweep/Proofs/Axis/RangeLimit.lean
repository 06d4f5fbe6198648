import SettingsSweep.Proofs.Axis.FiniteValues

/-!
How many values a range may have: one limit for steps, counts and integers, and it belongs to what is allowed. The
arithmetic behind it is done in words, and no step of it leaves its word.
-/

set_option autoImplicit false

namespace SettingsSweep

namespace Binary64

variable {x y : Binary64}

def isNegative : Binary64 → Bool
  | .finite s _ _ _ => s
  | .infinite s => s
  | .nan => false

theorem isNegative_ofRatio (s : Bool) (num : Nat) {den : Nat} (pos : 0 < den) :
    (ofRatio s num den).isNegative = s := by
  rcases Nat.eq_zero_or_pos num with rfl | some
  · rw [ofRatio_zero]
    rfl
  · rcases ofRatio_cases some pos s with ⟨m, e, canonical, eq, -⟩ | ⟨eq, -⟩
    · rw [eq]
      rfl
    · rw [eq]
      rfl

theorem isNegative_ofScaled (s : Bool) (num : Nat) (exp : Int) : (ofScaled s num exp).isNegative = s := by
  unfold ofScaled
  split
  · exact isNegative_ofRatio s _ (Nat.two_pow_pos _)
  · exact isNegative_ofRatio s _ Nat.one_pos

theorem isNegative_add (hx : x.isNegative = false) (hy : y.isNegative = false) : (x + y).isNegative = false := by
  change (x.add y).isNegative = false
  cases x with
  | nan => cases y <;> rfl
  | infinite s =>
    cases hx
    cases y with
    | nan => rfl
    | infinite t => cases hy; rfl
    | finite t n f hn => rfl
  | finite s m e hm =>
    cases hx
    cases y with
    | nan => rfl
    | infinite t => cases hy; rfl
    | finite t n f hn =>
      cases hy
      have nonneg : ¬signedUnits false m e (min e f) + signedUnits false n f (min e f) < 0 := by
        simp only [signedUnits, Bool.false_eq_true, if_false]
        omega
      unfold add
      dsimp only
      split
      · rfl
      · rw [isNegative_ofScaled, decide_eq_false nonneg]

theorem isNegative_div (sides : x.isNegative = y.isNegative) : (x / y).isNegative = false := by
  change (x.div y).isNegative = false
  cases x with
  | nan => cases y <;> rfl
  | infinite s =>
    cases y with
    | nan => rfl
    | infinite t => rfl
    | finite t n f hn =>
      cases sides
      exact bne_self_eq_false s
  | finite s m e hm =>
    cases y with
    | nan => rfl
    | infinite t =>
      cases sides
      exact bne_self_eq_false s
    | finite t n f hn =>
      cases sides
      unfold div
      dsimp only
      rw [bne_self_eq_false]
      split
      · split <;> rfl
      · next nonzero => exact isNegative_ofRatio _ _ (inUnits_pos _ (Nat.pos_of_ne_zero nonzero) _)

theorem isNegative_eq_of_signum (h : x.signum.same y.signum = true) : x.isNegative = y.isNegative := by
  have apart : (ofInt 1).same (ofInt (-1)) = false ∧ (ofInt (-1)).same (ofInt 1) = false := by decide
  have sides (s t : Bool)
      (h : (if s then ofInt (-1) else ofInt 1).same (if t then ofInt (-1) else ofInt 1) = true) : s = t := by
    cases s <;> cases t <;> simp_all
  have right (z : Binary64) : z.same .nan = false := by cases z <;> rfl
  cases x with
  | nan => cases h
  | infinite s =>
    cases y with
    | nan => rw [show signum .nan = .nan from rfl, right] at h; cases h
    | infinite t => exact sides s t h
    | finite t n f hn => exact sides s t h
  | finite s m e hm =>
    cases y with
    | nan => rw [show signum .nan = .nan from rfl, right] at h; cases h
    | infinite t => exact sides s t h
    | finite t n f hn => exact sides s t h

theorem toInt?_ofNat {n : Nat} (lt : n < 2 ^ 53) : (ofNat n).toInt? = some (n : Int) := by
  obtain ⟨m, e, canonical, eq, value⟩ := exists_ofNat_eq lt
  obtain ⟨whole, rest, one, parts, small, split⟩ := wholePart_spec m e
  have here : whole = n := by
    have := wholePart_eq (m := m) (n := n) (e := e) value.ge (by linarith)
    rwa [parts] at this
  have pos : (0 : ℚ) < one := by exact_mod_cast Nat.zero_lt_of_lt small
  have none : (rest : ℚ) / one = 0 := by
    rw [value, here] at split
    linarith
  obtain rfl : rest = 0 := by exact_mod_cast (div_eq_zero_iff.1 none).resolve_right pos.ne'
  rw [eq, toInt?, parts, here]
  rfl

theorem exists_floor (plus : x.isNegative = false) (finite : x.floor.isFinite = true) :
    ∃ n : Nat, x.floor = ofNat n := by
  obtain ⟨s, m, e, canonical, rfl⟩ := exists_eq_finite (isFinite_of_floor finite)
  cases plus
  exact ⟨(wholePart m e).1, by simp [floor, ofNat]⟩

end Binary64

namespace Expansion

open Binary64

/-! ### Expansion in words

Counts are words of 64 bits without a sign, bounds are words of 64 bits with one, and the distance of two bounds is a word
of 128 bits. What does not fit has no result. -/

def word? (x : Binary64) : Option (BitVec 64) :=
  match x.toInt? with
  | some k => if 0 ≤ k ∧ k < 2 ^ 64 then some (.ofInt 64 k) else none
  | none => none

/-- The words from one to another. A word is counted up only if it is not the last one. -/
def upTo? (first last : BitVec 64) : Option (List (BitVec 64)) :=
  if last.slt first then some []
  else if first.slt last then
    if first.saddOverflow 1#64 then none else (upTo? (first + 1#64) last).map (first :: ·)
  else some [first]
termination_by (last.toInt - first.toInt).toNat
decreasing_by
  have less : first.toInt < last.toInt := BitVec.slt_iff_toInt_lt.1 ‹_›
  have next : (first + 1#64).toInt = first.toInt + (1#64).toInt := BitVec.toInt_add_of_not_saddOverflow ‹_›
  have one : (1#64).toInt = 1 := rfl
  omega

def stepped? (start stop step : Binary64) : Option Expansion :=
  if step.isZero then some ⟨[point start], some .zeroStep⟩
  else if start.same stop then some ⟨[point start], none⟩
  else if !(stop - start).signum.same step.signum then some (refuse .awayFromEnd)
  else
    let steps := ((stop - start) / step + tolerance).floor
    if !steps.isFinite || (ofNat maxValues).le steps then some tooMany
    else (word? steps).bind fun n =>
      if n.uaddOverflow 1#64 then none else some ⟨progression start step (n + 1#64).toNat, none⟩

def counted? (start stop : Binary64) (count : BitVec 64) : Option Expansion :=
  if count = 0#64 then some ⟨[], none⟩
  else if count = 1#64 then some ⟨[point start], none⟩
  else if (BitVec.ofNat 64 maxValues).ult count then some tooMany
  else if count.usubOverflow 1#64 then none
  else some ⟨progression start ((stop - start) / ofNat (count - 1#64).toNat) count.toNat, none⟩

def integers? (start stop : BitVec 64) : Option Expansion :=
  if stop.slt start then some (refuse .backwards)
  else if (stop.signExtend 128).ssubOverflow (start.signExtend 128) then none
  else if (BitVec.ofNat 128 maxValues).sle (stop.signExtend 128 - start.signExtend 128) then some tooMany
  else (upTo? start stop).map fun words => ⟨words.map fun k => .number (ofInt k.toInt), none⟩

def ofForm? : RangeForm → Option Expansion
  | .stepped start stop down step =>
    stepped? start.value stop.value (if down then -step.value else step.value)
  | .badStep => some (refuse .stepNotNumber)
  | .counted start stop count =>
    match count.count? with
    | some n => counted? start.value stop.value (.ofNat 64 n)
    | none => some tooMany
  | .integers start stop =>
    match start.int64?, stop.int64? with
    | some a, some b => integers? (.ofInt 64 a) (.ofInt 64 b)
    | _, _ => some tooMany
  | .decimals => some (refuse .decimalBounds)

theorem word?_ofNat {n : Nat} (lt : n < 2 ^ 53) : word? (ofNat n) = some (.ofNat 64 n) := by
  unfold word?
  rw [toInt?_ofNat lt]
  dsimp only
  rw [if_pos (by omega)]
  rfl

theorem toInt_ofInt {k : Int} (least : -2 ^ 63 ≤ k) (most : k < 2 ^ 63) : (BitVec.ofInt 64 k).toInt = k := by
  rw [BitVec.toInt_ofInt]
  exact Int.bmod_eq_of_le (by omega) (by omega)

/-- Counting up ends at the last word, be it the greatest of all. -/
theorem upTo?_eq {a b : Int} (least : -2 ^ 63 ≤ a) (most : b < 2 ^ 63) (n : Nat) (width : b = a + n) :
    upTo? (.ofInt 64 a) (.ofInt 64 b) =
      some ((List.range (n + 1)).map fun (i : Nat) => .ofInt 64 (a + i)) := by
  induction n generalizing a with
  | zero =>
    obtain rfl : b = a := by omega
    have here : ¬(BitVec.ofInt 64 b).slt (BitVec.ofInt 64 b) = true := by
      rw [BitVec.slt_iff_toInt_lt]
      exact lt_irrefl _
    rw [upTo?, if_neg here, if_neg here]
    simp
  | succ n ih =>
    have first := toInt_ofInt least (by omega : a < 2 ^ 63)
    have last := toInt_ofInt (by omega : -2 ^ 63 ≤ b) most
    have forward : ¬(BitVec.ofInt 64 b).slt (BitVec.ofInt 64 a) = true := by
      rw [BitVec.slt_iff_toInt_lt, first, last]
      omega
    have more : (BitVec.ofInt 64 a).slt (BitVec.ofInt 64 b) = true := by
      rw [BitVec.slt_iff_toInt_lt, first, last]
      omega
    have one : (1#64).toInt = 1 := rfl
    have fits : ¬(BitVec.ofInt 64 a).saddOverflow 1#64 = true := by
      rw [BitVec.saddOverflow, first, one]
      simp
      omega
    have next : BitVec.ofInt 64 a + 1#64 = .ofInt 64 (a + 1) := by
      apply BitVec.eq_of_toInt_eq
      rw [BitVec.toInt_add_of_not_saddOverflow fits, first, one, toInt_ofInt (by omega) (by omega)]
    rw [upTo?, if_neg forward, if_pos more, if_neg fits, next, ih (by omega) (by omega), Option.map_some,
      List.range_succ_eq_map (n := n + 1), List.map_cons, List.map_map]
    simp [Function.comp_def, add_assoc, add_comm (1 : Int)]

theorem integers?_eq {a b : Int} (ha : -2 ^ 63 ≤ a ∧ a < 2 ^ 63) (hb : -2 ^ 63 ≤ b ∧ b < 2 ^ 63) :
    integers? (.ofInt 64 a) (.ofInt 64 b) = some (integers a b) := by
  have first := toInt_ofInt ha.1 ha.2
  have last := toInt_ofInt hb.1 hb.2
  have backwards : (BitVec.ofInt 64 b).slt (BitVec.ofInt 64 a) = true ↔ b < a := by
    rw [BitVec.slt_iff_toInt_lt, first, last]
  have wide (k : BitVec 64) : (k.signExtend 128).toInt = k.toInt := BitVec.toInt_signExtend_of_le (by decide)
  have fits : ¬((BitVec.ofInt 64 b).signExtend 128).ssubOverflow ((BitVec.ofInt 64 a).signExtend 128) = true := by
    rw [BitVec.ssubOverflow, wide, wide, first, last]
    simp
    omega
  have distance : ((BitVec.ofInt 64 b).signExtend 128 - (BitVec.ofInt 64 a).signExtend 128).toInt = b - a := by
    rw [BitVec.toInt_sub_of_not_ssubOverflow fits, wide, wide, first, last]
  have most : (BitVec.ofNat 128 maxValues).toInt = maxValues := by decide
  have many : (BitVec.ofNat 128 maxValues).sle
      ((BitVec.ofInt 64 b).signExtend 128 - (BitVec.ofInt 64 a).signExtend 128) = true ↔ (maxValues : Int) ≤ b - a := by
    rw [BitVec.sle_iff_toInt_le, distance, most]
  unfold integers? integers
  simp only [backwards, if_neg fits, many]
  split
  · rfl
  · next forward =>
    split
    · rfl
    · rw [upTo?_eq ha.1 hb.2 (b - a).toNat (by omega), Option.map_some, List.map_map]
      refine congrArg (fun values => some (Expansion.mk values none)) (List.map_congr_left fun i hi => ?_)
      have := List.mem_range.1 hi
      rw [Function.comp_apply, toInt_ofInt (by omega) (by omega)]

theorem counted?_eq (start stop : Binary64) {n : Nat} (lt : n < 2 ^ 64) :
    counted? start stop (.ofNat 64 n) = some (counted start stop n) := by
  have count : (BitVec.ofNat 64 n).toNat = n := Nat.mod_eq_of_lt lt
  have zero : BitVec.ofNat 64 n = 0#64 ↔ n = 0 := by
    rw [← BitVec.toNat_inj, count]
    rfl
  have one : BitVec.ofNat 64 n = 1#64 ↔ n = 1 := by
    rw [← BitVec.toNat_inj, count]
    rfl
  have many : (BitVec.ofNat 64 maxValues).ult (BitVec.ofNat 64 n) = true ↔ maxValues < n := by
    rw [BitVec.ult_iff_lt, BitVec.lt_def, count]
    rfl
  unfold counted? counted
  simp only [zero, one, many]
  split
  · rfl
  · next some =>
    split
    · rfl
    · split
      · rfl
      · have least : (1#64).toNat = 1 := rfl
        have fits : ¬(BitVec.ofNat 64 n).usubOverflow 1#64 = true := by
          rw [BitVec.usubOverflow, count, least]
          simpa using some
        have before : (BitVec.ofNat 64 n - 1#64).toNat = n - 1 := by
          rw [BitVec.toNat_sub_of_not_usubOverflow fits, count, least]
        rw [if_neg fits, before, count]

/-- The steps from start to end are no negative number, so they lose nothing as a word. -/
theorem stepped?_eq (start stop step : Binary64) : stepped? start stop step = some (stepped start stop step) := by
  unfold stepped? stepped
  split
  · rfl
  · split
    · rfl
    · split
      · rfl
      · next sides =>
        dsimp only
        split
        · rfl
        · next few =>
          simp only [Bool.or_eq_true, Bool.not_eq_true', not_or, Bool.not_eq_true, Bool.not_eq_false] at sides few
          have toward := isNegative_div (isNegative_eq_of_signum sides)
          have plus : ((stop - start) / step + tolerance).isNegative = false :=
            isNegative_add toward (by rw [tolerance_eq]; rfl)
          obtain ⟨n, eq⟩ := exists_floor plus few.1
          rw [eq] at few ⊢
          have small : n < 100000 := by
            by_contra large
            rw [le_of_roundsTo (roundsTo_ofNat maxValues) (roundsTo_ofNat n) (by exact_mod_cast not_lt.1 large)] at few
            cases few.2
          have count : (BitVec.ofNat 64 n).toNat = n := Nat.mod_eq_of_lt (by omega)
          have one : (1#64).toNat = 1 := rfl
          have fits : ¬(BitVec.ofNat 64 n).uaddOverflow 1#64 = true := by
            rw [BitVec.uaddOverflow, count, one]
            simp
            omega
          rw [word?_ofNat (by omega), Option.bind_some, if_neg fits, BitVec.toNat_add_of_not_uaddOverflow fits, count, one,
            truncToNat_ofNat (by omega)]

theorem ofForm?_eq (form : RangeForm) : ofForm? form = some (ofForm form) := by
  cases form with
  | stepped start stop down step => exact stepped?_eq _ _ _
  | badStep => rfl
  | decimals => rfl
  | counted start stop count =>
    cases read : count.count? with
    | none => simp only [ofForm?, ofForm, read]
    | some n =>
      simp only [ofForm?, ofForm, read]
      exact counted?_eq _ _ (Numeral.count?_eq_some_iff.1 read).2.2
  | integers start stop =>
    cases ha : start.int64? with
    | none => simp only [ofForm?, ofForm, ha]
    | some a =>
      cases hb : stop.int64? with
      | none => simp only [ofForm?, ofForm, ha, hb]
      | some b =>
        simp only [ofForm?, ofForm, ha, hb]
        exact integers?_eq (int64?_bounds ha) (int64?_bounds hb)

theorem length_progression (start step : Binary64) (n : Nat) : (progression start step n).length = n := by
  simp [progression]

theorem length_ofForm_le (form : RangeForm) : (ofForm form).values.length ≤ maxValues := by
  have none : ([] : List Scalar).length ≤ maxValues := Nat.zero_le _
  have single (v : Scalar) : [v].length ≤ maxValues := Nat.succ_pos 99999
  cases form with
  | badStep => exact none
  | decimals => exact none
  | stepped start stop down step =>
    unfold ofForm
    rcases stepped_cases start.value stop.value (if down then -step.value else step.value) with
      eq | eq | ⟨-, n, few, eq⟩
    · exact eq ▸ none
    · exact eq ▸ single _
    · rw [eq, length_progression]
      exact few
  | counted start stop count =>
    unfold ofForm
    dsimp only
    split
    · next n read =>
      rcases counted_cases start.value stop.value n with eq | eq | ⟨m, -, few, eq⟩
      · exact eq ▸ none
      · exact eq ▸ single _
      · rw [eq, length_progression]
        exact few
    · exact none
  | integers start stop =>
    unfold ofForm integers
    dsimp only
    split
    · split
      · exact none
      · split
        · exact none
        · rw [List.length_map, List.length_range]
          omega
    · exact none

theorem counted_of_le (start stop : Binary64) {n : Nat} (few : n ≤ maxValues) :
    (counted start stop n).values.length = n ∧ (counted start stop n).problem = none := by
  unfold counted
  split
  · next zero => exact ⟨zero.symm, rfl⟩
  · split
    · next one => exact ⟨one.symm, rfl⟩
    · rw [if_neg (not_lt.2 few)]
      exact ⟨length_progression _ _ _, rfl⟩

theorem counted_of_lt (start stop : Binary64) {n : Nat} (many : maxValues < n) : counted start stop n = tooMany := by
  have most : maxValues = 100000 := rfl
  rw [counted, if_neg (by omega), if_neg (by omega), if_pos many]

theorem ofForm_counted {start stop count : Numeral} (ascii : count.all Char.isDigit = true) :
    (Decimal.natOfDigits count ≤ maxValues →
        (ofForm (.counted start stop count)).values.length = Decimal.natOfDigits count ∧
          (ofForm (.counted start stop count)).problem = none) ∧
      (maxValues < Decimal.natOfDigits count → ofForm (.counted start stop count) = tooMany) := by
  have most : maxValues = 100000 := rfl
  cases read : count.count? with
  | some n =>
    obtain ⟨-, rfl, -⟩ := Numeral.count?_eq_some_iff.1 read
    simp only [ofForm, read]
    exact ⟨counted_of_le _ _, counted_of_lt _ _⟩
  | none =>
    simp only [ofForm, read]
    refine ⟨fun few => ?_, fun _ => trivial⟩
    have word : Nat.pow 2 64 = 2 ^ 64 := rfl
    rw [Numeral.count?_eq_some_iff.2 ⟨ascii, rfl, by omega⟩] at read
    cases read

theorem integers_of_le {a b : Int} (le : a ≤ b) :
    (b - a + 1 ≤ maxValues → (integers a b).values.length = b - a + 1 ∧ (integers a b).problem = none) ∧
      (maxValues < b - a + 1 → integers a b = tooMany) := by
  unfold integers
  rw [if_neg (not_lt.2 le)]
  constructor
  · intro few
    rw [if_neg (by omega)]
    refine ⟨?_, rfl⟩
    rw [List.length_map, List.length_range]
    omega
  · intro many
    rw [if_pos (by omega)]

end Expansion

namespace Row

/-- The limit of a range. No range has more values than are allowed; a count and two integer bounds give as many values as
    they ask for up to that number itself, and beyond it no value and a warning that says so, however large they are; and
    the words in which all this is worked out are never left. -/
theorem range_limit :
    (∀ {text : String} {form : RangeForm}, RangeForm.ofText? (Text.trimChars text.toList) = some form →
        (ofText text).values.length ≤ Expansion.maxValues) ∧
      (∀ {text : String} {start stop count : Numeral},
        RangeForm.ofText? (Text.trimChars text.toList) = some (.counted start stop count) →
        count.all Char.isDigit = true →
          (Decimal.natOfDigits count ≤ Expansion.maxValues →
            (ofText text).values.length = Decimal.natOfDigits count ∧ (ofText text).warning = none) ∧
          (Expansion.maxValues < Decimal.natOfDigits count →
            ofText text = ⟨[], some ⟨.tooManyValues Expansion.maxValues, Text.trim text⟩⟩)) ∧
      (∀ {text : String} {start stop : Numeral} {a b : Int},
        RangeForm.ofText? (Text.trimChars text.toList) = some (.integers start stop) →
        start.int64? = some a → stop.int64? = some b → a ≤ b →
          (b - a + 1 ≤ Expansion.maxValues →
            (ofText text).values.length = b - a + 1 ∧ (ofText text).warning = none) ∧
          (Expansion.maxValues < b - a + 1 →
            ofText text = ⟨[], some ⟨.tooManyValues Expansion.maxValues, Text.trim text⟩⟩)) ∧
      ∀ form : RangeForm, Expansion.ofForm? form = some (Expansion.ofForm form) := by
  refine ⟨fun read => ?_, fun read ascii => ?_, fun {_ start stop a b} read ha hb le => ?_, Expansion.ofForm?_eq⟩
  · rw [ofText_of_form read]
    exact Expansion.length_ofForm_le _
  · obtain ⟨few, many⟩ := Expansion.ofForm_counted ascii
    rw [ofText_of_form read]
    refine ⟨fun h => ⟨(few h).1, ?_⟩, fun h => ?_⟩
    · rw [(few h).2]
      rfl
    · rw [many h]
      rfl
  · have form : Expansion.ofForm (.integers start stop) = Expansion.integers a b := by
      rw [Expansion.ofForm, ha, hb]
    obtain ⟨few, many⟩ := Expansion.integers_of_le le
    rw [ofText_of_form read, form]
    refine ⟨fun h => ⟨(few h).1, ?_⟩, fun h => ?_⟩
    · rw [(few h).2]
      rfl
    · rw [many h]
      rfl

theorem range_limit_last_words :
    (ofText "0-1 [100000]").values.length = 100000 ∧
      ofText "0-1 [18446744073709551616]" =
        ⟨[], some ⟨.tooManyValues Expansion.maxValues, Text.trim "0-1 [18446744073709551616]"⟩⟩ ∧
      ((ofText "9223372036854675808-9223372036854775807").values.length : Int) = 100000 ∧
      ofText "-9223372036854775808-9223372036854775807" = ⟨[], some ⟨.tooManyValues Expansion.maxValues,
        Text.trim "-9223372036854775808-9223372036854775807"⟩⟩ := by
  obtain ⟨-, counts, integers, -⟩ := range_limit
  have most : RangeForm.ofText? (Text.trimChars "0-1 [100000]".toList) =
      some (.counted ['0'] ['1'] "100000".toList) := by decide
  have beyond : RangeForm.ofText? (Text.trimChars "0-1 [18446744073709551616]".toList) =
      some (.counted ['0'] ['1'] "18446744073709551616".toList) := by decide
  have last : RangeForm.ofText? (Text.trimChars "9223372036854675808-9223372036854775807".toList) =
      some (.integers "9223372036854675808".toList "9223372036854775807".toList) := by decide
  have all : RangeForm.ofText? (Text.trimChars "-9223372036854775808-9223372036854775807".toList) =
      some (.integers "-9223372036854775808".toList "9223372036854775807".toList) := by decide
  have low : Numeral.int64? "9223372036854675808".toList = some 9223372036854675808 := by decide
  have high : Numeral.int64? "9223372036854775807".toList = some 9223372036854775807 := by decide
  have least : Numeral.int64? "-9223372036854775808".toList = some (-9223372036854775808) := by decide
  refine ⟨?_, ?_, ?_, ?_⟩
  · exact ((counts most (by decide)).1 (by decide)).1
  · exact (counts beyond (by decide)).2 (by decide)
  · exact ((integers last low high (by decide)).1 (by decide)).1
  · exact (integers all least high (by decide)).2 (by decide)

end Row

end SettingsSweep

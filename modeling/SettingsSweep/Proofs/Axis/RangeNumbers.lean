import SettingsSweep.Proofs.Axis.RangeGrammar
import SettingsSweep.Proofs.Number.Decimal

/-!
The numbers of a range. Digits of any script make a numeral, but only ASCII digits are read: such a numeral is the
number that it writes, rounded once, and any other counts as zero.
-/

set_option autoImplicit false

namespace SettingsSweep

theorem Text.toLower_of_isDigit {c : Char} (h : isDigit c = true) : c.toLower = c := by
  have gaps : ∀ first ∈ zeroDigits, first + 10 ≤ 0x41 ∨ 0x5A < first := by decide
  obtain ⟨first, known, place⟩ := List.any_eq_true.1 h
  simp only [Bool.and_eq_true, decide_eq_true_eq] at place
  have := gaps first known
  refine dif_neg fun capital => ?_
  have low : 0x41 ≤ c.toNat := UInt32.le_iff_toNat_le.1 capital.1
  have high : c.toNat ≤ 0x5A := UInt32.le_iff_toNat_le.1 capital.2
  omega

namespace Numeral

open Binary64 (RoundsTo)

variable {n : Numeral}

def Ascii (n : Numeral) : Prop := ∀ c ∈ n, Text.isDigit c = true → c.isDigit = true

instance : DecidablePred Ascii := fun n =>
  decidable_of_iff (n.all (fun c => !Text.isDigit c || c.isDigit) = true) (by
    simp only [Ascii, List.all_eq_true, Bool.or_eq_true, Bool.not_eq_true', ← Bool.not_eq_true, imp_iff_not_or])

/-- The digits before the point, and those after it as a fraction. -/
def magnitude (n : Numeral) : ℚ :=
  let fraction := (n.dropWhile (· ≠ '.')).tail
  Decimal.natOfDigits (n.takeWhile (· ≠ '.')) + Decimal.natOfDigits fraction / 10 ^ fraction.length

/-- The rational that a numeral of ASCII digits writes. -/
def written : Numeral → ℚ
  | '-' :: n => -magnitude n
  | n => magnitude n

theorem ne_point_of_isDigit {c : Char} (h : Text.isDigit c = true) : c ≠ '.' := by
  rintro rfl
  exact absurd h (by decide)

theorem magnitude_whole {digits : List Char} (all : digits.all Text.isDigit = true) :
    magnitude digits = Decimal.natOfDigits digits := by
  have inside : ∀ c ∈ digits, decide (c ≠ '.') = true := fun c hc =>
    decide_eq_true (ne_point_of_isDigit (List.all_eq_true.1 all c hc))
  have taken : digits.takeWhile (· ≠ '.') = digits := List.takeWhile_eq_self_iff.2 inside
  have left : digits.dropWhile (· ≠ '.') = [] := List.dropWhile_eq_nil_iff.2 inside
  unfold magnitude
  simp only [taken, left, List.tail_nil]
  simp [Decimal.natOfDigits]

theorem magnitude_pointed {whole fraction : List Char} (all : whole.all Text.isDigit = true) :
    magnitude (whole ++ '.' :: fraction) =
      Decimal.natOfDigits whole + Decimal.natOfDigits fraction / 10 ^ fraction.length := by
  have inside : ∀ c ∈ whole, decide (c ≠ '.') = true := fun c hc =>
    decide_eq_true (ne_point_of_isDigit (List.all_eq_true.1 all c hc))
  have point : ∀ c ∈ ('.' :: fraction).head?, decide (c ≠ '.') = false := by
    intro c hc
    cases hc
    decide
  obtain ⟨taken, left⟩ := Text.span_append inside point
  unfold magnitude
  simp only [taken, left, List.tail_cons]

theorem Unsigned.exists_read (h : Unsigned n) (ascii : n.Ascii) (negative : Bool) :
    ∃ d, Decimal.unsigned? negative n = some d ∧ d.toRat = (if negative then -1 else 1) * n.magnitude := by
  have digits : ∀ {run : List Char}, run.all Text.isDigit = true → (∀ c ∈ run, c ∈ n) →
      run.all Char.isDigit = true := by
    intro run all inside
    exact List.all_eq_true.2 fun c hc => ascii c (inside c hc) (List.all_eq_true.1 all c hc)
  cases h with
  | whole some all =>
    refine ⟨_, Decimal.unsigned?_whole negative some (digits all fun c hc => hc), ?_⟩
    rw [magnitude_whole all, Decimal.toRat, zpow_zero, mul_one]
  | @pointed whole fraction some all all' =>
    refine ⟨_, Decimal.unsigned?_pointed negative some (digits all fun c hc => by simp [hc])
      (digits all' fun c hc => by simp [hc]), ?_⟩
    rw [magnitude_pointed all, Decimal.toRat, Decimal.natOfDigits_append, zpow_neg, zpow_natCast]
    push_cast
    field_simp

theorem Signed.exists_read (h : Signed n) (ascii : n.Ascii) :
    ∃ d, Decimal.ofText? n = some d ∧ d.toRat = n.written := by
  cases h with
  | plain h =>
    obtain ⟨d, read, value⟩ := h.exists_read ascii false
    refine ⟨d, ?_, ?_⟩
    · rw [Decimal.ofText?, h.splitSign]
      exact read
    · obtain ⟨c, cs, rfl, first⟩ := h.exists_cons
      rw [value, if_neg Bool.false_ne_true, one_mul]
      unfold written
      split
      · next minus =>
        cases minus
        exact absurd first (by decide)
      · rfl
  | @minus n h =>
    obtain ⟨d, read, value⟩ := h.exists_read (fun c hc => ascii c (List.mem_cons_of_mem _ hc)) true
    refine ⟨d, read, ?_⟩
    rw [value, if_pos rfl, neg_one_mul, written]

/-- A digit of another script is in no decimal and in no name of a number. -/
theorem Signed.not_read (h : Signed n) (other : ¬ n.Ascii) : Binary64.ofText? n = none := by
  obtain ⟨c, hc, digit, foreign⟩ : ∃ c ∈ n, Text.isDigit c = true ∧ c.isDigit = false := by
    simpa [Ascii] using other
  have noPart : Decimal.isPart c = false := by
    have apart : ['.', 'e', 'E', '+', '-'].all (!Text.isDigit ·) = true := by decide
    rw [Decimal.isPart, foreign, Bool.false_or, decide_eq_false_iff_not]
    intro hd
    have other := List.all_eq_true.1 apart c hd
    rw [digit] at other
    cases other
  have inside : c ∈ (Decimal.splitSign n).2 := by
    cases h with
    | plain h => rwa [h.splitSign]
    | minus h =>
      refine (List.mem_cons.1 hc).resolve_left ?_
      rintro rfl
      exact absurd digit (by decide)
  have noDecimal : Decimal.ofText? n = none := by
    cases read : Decimal.ofText? n with
    | none => rfl
    | some d =>
      have part := Decimal.isPart_of_unsigned? read c inside
      rw [noPart] at part
      cases part
  have noName : ∀ name : String, name.toList.all (!Text.isDigit ·) = true →
      String.ofList ((Decimal.splitSign n).2.map Char.toLower) ≠ name := by
    intro name letters same
    have found : c ∈ name.toList := by
      rw [← same, String.toList_ofList]
      exact List.mem_map.2 ⟨c, inside, Text.toLower_of_isDigit digit⟩
    have letter := List.all_eq_true.1 letters c found
    rw [digit] at letter
    cases letter
  unfold Binary64.ofText?
  rw [noDecimal]
  dsimp only
  rw [Binary64.named?, if_neg (not_or.2 ⟨noName "inf" (by decide), noName "infinity" (by decide)⟩),
    if_neg (noName "nan" (by decide))]

theorem Signed.value_of_ascii (h : Signed n) (ascii : n.Ascii) :
    Binary64.ofText? n = some n.value ∧ RoundsTo n.written n.value := by
  obtain ⟨d, read, value⟩ := h.exists_read ascii
  have number : Binary64.ofText? n = some d.toBinary64 := by rw [Binary64.ofText?, read]
  rw [Numeral.value, number, Option.getD_some]
  exact ⟨rfl, value ▸ d.roundsTo_toBinary64⟩

theorem Signed.value_of_not_ascii (h : Signed n) (other : ¬ n.Ascii) : n.value = .zero false := by
  rw [Numeral.value, h.not_read other, Option.getD_none]

end Numeral

namespace RangeForm

/-- The numerals that are read as numbers: bounds and a step, but no count. -/
def numbers : RangeForm → List Numeral
  | .stepped start stop _ step => [start, stop, step]
  | .counted start stop _ => [start, stop]
  | _ => []

theorem signed_of_mem_numbers {text : List Char} {form : RangeForm} (read : ofText? text = some form) :
    ∀ n ∈ form.numbers, Numeral.Signed n := by
  by_cases bad : form = .badStep
  · exact bad ▸ fun n hn => by cases hn
  · obtain ⟨⟨start, stop, tail⟩, ⟨hs, he, a, b, rest, -, -, spelt, -⟩, rfl⟩ :=
      RangeParts.exists_spells read bad
    cases spelt with
    | bare =>
      have none : (RangeParts.form ⟨start, stop, .bare⟩).numbers = [] := by
        unfold RangeParts.form
        dsimp only
        split <;> rfl
      exact none ▸ fun n hn => by cases hn
    | counted => simpa [RangeParts.form, numbers] using ⟨hs, he⟩
    | stepped plus numeral => simpa [RangeParts.form, numbers] using ⟨hs, he, .plain numeral⟩

end RangeForm

/-- A range stands for the numbers in its text if their digits are ASCII digits: then, and only then, each of them is
    read, and as what it writes, rounded once. In place of any other the range is computed from zero. -/
theorem Row.range_numbers_read {text : String} {form : RangeForm}
    (read : RangeForm.ofText? (Text.trimChars text.toList) = some form) :
    (Row.ofText text).values = (Expansion.ofForm form).values ∧
      ((∀ n ∈ form.numbers, (Binary64.ofText? n).isSome = true) ↔ ∀ n ∈ form.numbers, n.Ascii) ∧
      ∀ n ∈ form.numbers,
        (n.Ascii → Binary64.ofText? n = some n.value ∧ Binary64.RoundsTo n.written n.value) ∧
          (¬ n.Ascii → Binary64.ofText? n = none ∧ n.value = .zero false) := by
  have signed := RangeForm.signed_of_mem_numbers read
  refine ⟨by rw [Row.ofText_of_form read], forall₂_congr fun n hn => ?_, fun n hn => ?_⟩
  · constructor
    · intro some
      by_contra other
      rw [(signed n hn).not_read other] at some
      cases some
    · intro ascii
      rw [((signed n hn).value_of_ascii ascii).1]
      rfl
  · exact ⟨(signed n hn).value_of_ascii,
      fun other => ⟨(signed n hn).not_read other, (signed n hn).value_of_not_ascii other⟩⟩

theorem Row.range_numbers_read_quarter :
    RangeForm.ofText? (Text.trimChars " -1.5 - .5 (+0.25)".toList) =
        some (.stepped "-1.5".toList ".5".toList false "0.25".toList) ∧
      Binary64.RoundsTo (-3 / 2) (Numeral.value "-1.5".toList) ∧
      (Row.ofText " -1.5 - .5 (+0.25)").values.length = 9 := by
  have read : RangeForm.ofText? (Text.trimChars " -1.5 - .5 (+0.25)".toList) =
      some (.stepped "-1.5".toList ".5".toList false "0.25".toList) := by decide +kernel
  have start := (Row.range_numbers_read read).2.2 "-1.5".toList (by decide)
  have written : Numeral.written "-1.5".toList = -3 / 2 := by decide +kernel
  exact ⟨read, written ▸ (start.1 (by decide)).2, by decide +kernel⟩

/-- An Arabic three is a digit of a bound, and the range starts at zero in its place. -/
theorem Row.arabic_bound_not_read :
    RangeForm.ofText? (Text.trimChars "٣-5 [1]".toList) = some (.counted ['٣'] ['5'] ['1']) ∧
      Binary64.ofText? ['٣'] = none ∧ (Row.ofText "٣-5 [1]").values = [.number (.ofInt 0)] ∧
      (Row.ofText "3-5 [1]").values = [.number (.ofInt 3)] := by
  decide +kernel

end SettingsSweep

import SettingsSweep.Proofs.Axis.RangeGrammar
import SettingsSweep.Proofs.Number.Decimal

/-!
Reading back a written range: an integer is written as its digits after a minus or none, and a range of two such
bounds, with any tail, is read as these. A step that is read has no minus of its own.
-/

set_option autoImplicit false

namespace SettingsSweep

theorem Text.isBlank_of_isDigit {c : Char} (h : c.isDigit = true) : isBlank c = false :=
  isBlank_of_isDigit_script (isDigit_of_ascii c h)

theorem all_isDigit_toDigits (n : Nat) : (Nat.toDigits 10 n).all Char.isDigit = true :=
  List.all_eq_true.2 fun _ hc => Nat.isDigit_of_mem_toDigits (by decide) (by decide) hc

theorem Decimal.natOfDigits_toDigits (n : Nat) : natOfDigits (Nat.toDigits 10 n) = n :=
  Nat.ofDigitChars_ten_toDigits

theorem Decimal.unsigned?_toDigits (negative : Bool) (n : Nat) :
    unsigned? negative (Nat.toDigits 10 n) = some ⟨negative, n, 0⟩ := by
  rw [unsigned?_whole negative Nat.toDigits_ne_nil (all_isDigit_toDigits n), natOfDigits_toDigits]

namespace Numeral

theorem all_isDigit_script_toDigits (n : Nat) : (Nat.toDigits 10 n).all Text.isDigit = true :=
  List.all_eq_true.2 fun c hc => Text.isDigit_of_ascii c (List.all_eq_true.1 (all_isDigit_toDigits n) c hc)

theorem unsigned_toDigits (n : Nat) : Unsigned (Nat.toDigits 10 n) :=
  .whole Nat.toDigits_ne_nil (all_isDigit_script_toDigits n)

def ofInt (k : Int) : Numeral :=
  if k < 0 then '-' :: Nat.toDigits 10 k.natAbs else Nat.toDigits 10 k.natAbs

theorem toList_toString (k : Int) : (toString k).toList = ofInt k := by
  rw [Int.toString_eq_repr, Int.repr_eq_if, ofInt]
  by_cases neg : k < 0
  · rw [if_neg (by omega), if_pos neg, String.toList_append, Nat.toList_repr,
      show (-k).toNat = k.natAbs by omega]
    rfl
  · rw [if_pos (by omega), if_neg neg, Nat.toList_repr, show k.toNat = k.natAbs by omega]

theorem ofInt_natCast (n : Nat) : ofInt n = Nat.toDigits 10 n := if_neg (by omega)

theorem splitSign_ofInt (k : Int) :
    Decimal.splitSign (ofInt k) = (decide (k < 0), Nat.toDigits 10 k.natAbs) := by
  unfold ofInt
  by_cases neg : k < 0
  · rw [if_pos neg, decide_eq_true neg]
    rfl
  · rw [if_neg neg, decide_eq_false neg]
    exact (unsigned_toDigits _).splitSign

theorem value_ofInt (k : Int) : (ofInt k).value = .ofInt k := by
  have spelt : Decimal.ofText? (ofInt k) = some ⟨decide (k < 0), k.natAbs, 0⟩ := by
    unfold Decimal.ofText?
    rw [splitSign_ofInt]
    exact Decimal.unsigned?_toDigits _ _
  unfold value Binary64.ofText?
  rw [spelt, Option.getD_some, Decimal.toBinary64, Binary64.ofInt]
  by_cases zero : k = 0
  · subst zero
    rfl
  · have nonzero : k.natAbs ≠ 0 := Int.natAbs_ne_zero.2 zero
    simp [nonzero]

theorem int64?_ofInt {k : Int} (h : k.natAbs < 2 ^ 63) : (ofInt k).int64? = some k := by
  unfold int64?
  rw [splitSign_ofInt]
  simp only [all_isDigit_toDigits, Decimal.natOfDigits_toDigits, if_true]
  by_cases neg : k < 0
  · rw [if_pos (decide_eq_true neg)]
    exact (if_pos h.le).trans (congrArg some (by omega))
  · rw [if_neg (by simpa using neg)]
    exact (if_pos h).trans (congrArg some (by omega))

theorem count?_toDigits {n : Nat} (h : n < 2 ^ 64) : count? (Nat.toDigits 10 n) = some n := by
  unfold count?
  rw [if_pos (all_isDigit_toDigits n), Decimal.natOfDigits_toDigits]
  exact if_pos h

theorem isInteger_ofInt (k : Int) : (ofInt k).isInteger = true := by
  have digits : '.' ∉ Nat.toDigits 10 k.natAbs := by
    intro h
    have := Nat.isDigit_of_mem_toDigits (by decide) (by decide) h
    cases this
  unfold isInteger ofInt
  split <;> simp [digits]

theorem signed_ofInt (k : Int) : Signed (ofInt k) := by
  unfold ofInt
  split
  · exact .minus (unsigned_toDigits _)
  · exact .plain (unsigned_toDigits _)

end Numeral

namespace RangeForm

def written (a b : Int) (rest : List Char) : List Char :=
  Numeral.ofInt a ++ '-' :: (Numeral.ofInt b ++ rest)

theorem spells_written (a b : Int) {tail : RangeTail} {rest : List Char} (h : tail.Spells rest) :
    (⟨Numeral.ofInt a, Numeral.ofInt b, tail⟩ : RangeParts).Spells (written a b rest) :=
  ⟨Numeral.signed_ofInt a, Numeral.signed_ofInt b, [], [], rest, rfl, rfl, h, rfl⟩

theorem form_integers (a b : Int) :
    (⟨Numeral.ofInt a, Numeral.ofInt b, .bare⟩ : RangeParts).form =
      .integers (Numeral.ofInt a) (Numeral.ofInt b) := by
  simp [RangeParts.form, Numeral.isInteger_ofInt]

/-- A step that is read has no minus of its own. -/
theorem head?_step {text : List Char} {start stop step : Numeral} {down : Bool}
    (h : ofText? text = some (.stepped start stop down step)) : step.head? ≠ some '-' := by
  obtain ⟨⟨s, e, tail⟩, ⟨-, -, a, b, rest, -, -, spelt, -⟩, form⟩ :=
    RangeParts.exists_spells h (fun bad => by cases bad)
  cases spelt with
  | bare =>
    unfold RangeParts.form at form
    dsimp only at form
    split at form <;> cases form
  | counted => cases form
  | stepped plus numeral =>
    cases form
    obtain ⟨c, cs, rfl, first⟩ := numeral.exists_cons
    rintro minus
    obtain rfl : c = '-' := Option.some.inj minus
    exact absurd first (by decide)

end RangeForm

theorem Row.ofText_written {text : String} {a b : Int} {tail : RangeTail} {rest : List Char}
    (toList : text.toList = RangeForm.written a b rest) (spelt : tail.Spells rest) :
    Row.ofText text = ⟨(Expansion.ofForm (RangeParts.form ⟨.ofInt a, .ofInt b, tail⟩)).values,
      (Expansion.ofForm (RangeParts.form ⟨.ofInt a, .ofInt b, tail⟩)).problem.map fun p => ⟨p, text⟩⟩ := by
  have read := ofText_of_spells (RangeForm.spells_written a b spelt) (List.all_nil (f := Text.isBlank))
    (List.all_nil (f := Text.isBlank))
  rwa [List.nil_append, List.append_nil, ← toList, String.ofList_toList] at read

end SettingsSweep

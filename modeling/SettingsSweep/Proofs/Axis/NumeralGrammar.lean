import SettingsSweep.Axis.RangeForm
import Mathlib.Data.List.Basic
import Mathlib.Data.List.DropRight
import Mathlib.Data.List.TakeWhile
import Mathlib.Tactic.Tauto

/-!
The grammar of numerals, apart from the reader: digits of any script with a point or none, and a minus or none before
them. The reader takes such a numeral off a text, and nothing else, if what follows does not carry it on.
-/

set_option autoImplicit false

namespace SettingsSweep

namespace Text

theorem dropWhile_eq_self {p : Char → Bool} {text : List Char}
    (first : ∀ c ∈ text.head?, p c = false) : text.dropWhile p = text := by
  cases text with
  | nil => rfl
  | cons c cs => exact List.dropWhile_cons_of_neg (by simp [first c rfl])

theorem span_append {p : Char → Bool} {run rest : List Char} (all : ∀ c ∈ run, p c = true)
    (stop : ∀ c ∈ rest.head?, p c = false) :
    (run ++ rest).takeWhile p = run ∧ (run ++ rest).dropWhile p = rest := by
  have none : rest.takeWhile p = [] := by
    cases rest with
    | nil => rfl
    | cons c cs => exact List.takeWhile_cons_of_neg (by simp [stop c rfl])
  rw [List.takeWhile_append_of_pos all, List.dropWhile_append_of_pos all, none,
    dropWhile_eq_self stop, List.append_nil]
  exact ⟨rfl, rfl⟩

theorem isBlank_of_isDigit_script {c : Char} (h : isDigit c = true) : isBlank c = false := by
  have gaps : ∀ first ∈ zeroDigits, 0x30 ≤ first ∧ (first + 10 ≤ 0x85 ∨ 0xA0 < first) ∧
      (first + 10 ≤ 0x1680 ∨ 0x1680 < first) ∧ (first + 10 ≤ 0x2000 ∨ 0x3000 < first) := by decide
  obtain ⟨first, known, place⟩ := List.any_eq_true.1 h
  simp only [Bool.and_eq_true, decide_eq_true_eq] at place
  have := gaps first known
  simp only [isBlank, Bool.or_eq_false_iff, Bool.and_eq_false_iff, decide_eq_false_iff_not,
    beq_eq_false_iff_ne]
  omega

theorem skipBlank_of_not_blank {word : List Char} (ne : word ≠ []) (solid : ∀ c ∈ word, isBlank c = false)
    (rest : List Char) : skipBlank (word ++ rest) = word ++ rest := by
  refine dropWhile_eq_self fun c hc => solid c ?_
  rw [List.head?_append_of_ne_nil _ ne] at hc
  exact List.mem_of_mem_head? hc

theorem skipBlank_append {blank : List Char} (h : blank.all isBlank = true) (rest : List Char) :
    skipBlank (blank ++ rest) = skipBlank rest :=
  List.dropWhile_append_of_pos (List.all_eq_true.1 h)

theorem exists_blank_append (text : List Char) :
    ∃ blank : List Char, blank.all isBlank = true ∧ text = blank ++ skipBlank text :=
  ⟨text.takeWhile isBlank, List.all_takeWhile, List.takeWhile_append_dropWhile.symm⟩

theorem trimChars_append {before text after : List Char} (hb : before.all isBlank = true)
    (ha : after.all isBlank = true) (first : ∀ c ∈ text.head?, isBlank c = false)
    (last : ∀ c ∈ text.getLast?, isBlank c = false) (ne : text ≠ []) :
    trimChars (before ++ (text ++ after)) = text := by
  have start : ∀ c ∈ (text ++ after).head?, isBlank c = false := by
    rwa [List.head?_append_of_ne_nil _ ne]
  have back : after.reverse.all isBlank = true := by rwa [List.all_reverse]
  unfold trimChars dropBlankEnd
  rw [skipBlank_append hb, skipBlank, dropWhile_eq_self start, List.reverse_append,
    List.dropWhile_append_of_pos (List.all_eq_true.1 back),
    dropWhile_eq_self (by simpa [List.head?_reverse] using last), List.reverse_reverse]

theorem exists_trim (text : List Char) : ∃ before after : List Char, before.all isBlank = true ∧
    after.all isBlank = true ∧ text = before ++ (trimChars text ++ after) := by
  obtain ⟨before, hb, start⟩ := exists_blank_append text
  obtain ⟨after, ha, back⟩ := exists_blank_append (skipBlank text).reverse
  have whole : trimChars text ++ after.reverse = skipBlank text := by
    rw [← List.reverse_inj, List.reverse_append, List.reverse_reverse, back]
    exact congrArg (after ++ ·) (List.reverse_reverse _)
  exact ⟨before, after.reverse, hb, by rwa [List.all_reverse], by rw [whole]; exact start⟩

theorem trimChars_eq_nil_iff {text : List Char} : trimChars text = [] ↔ ∀ c ∈ text, isBlank c = true := by
  constructor
  · intro empty
    obtain ⟨before, after, hb, ha, parts⟩ := exists_trim text
    rw [parts, empty]
    simpa [or_imp, forall_and] using And.intro hb ha
  · intro blank
    have skipped : skipBlank text = [] := List.dropWhile_eq_nil_iff.2 blank
    rw [trimChars, skipped]
    rfl

theorem head?_trimChars (text : List Char) : ∀ c ∈ (trimChars text).head?, isBlank c = false := by
  intro c hc
  obtain ⟨rest, whole⟩ : trimChars text <+: skipBlank text := List.rdropWhile_prefix isBlank (skipBlank text)
  have first : (skipBlank text).head? = some c := by
    rw [← whole]
    exact List.mem_head?_append_of_mem_head? hc
  have stopped := List.head?_dropWhile_not isBlank text
  rw [show text.dropWhile isBlank = skipBlank text from rfl, first] at stopped
  exact stopped

theorem trimChars_trimChars (text : List Char) : trimChars (trimChars text) = trimChars text := by
  have start : skipBlank (trimChars text) = trimChars text := dropWhile_eq_self (head?_trimChars text)
  change dropBlankEnd (skipBlank (trimChars text)) = trimChars text
  rw [start]
  exact List.rdropWhile_idempotent isBlank (skipBlank text)

end Text

namespace Numeral

/-- What may follow a numeral: nothing that carries it on. -/
def Ends (rest : List Char) : Prop := ∀ c ∈ rest.head?, Text.isDigit c = false ∧ c ≠ '.'

/-- Digits of any script, and a point before, among or after them. -/
inductive Unsigned : Numeral → Prop
  | whole {digits : List Char} (some : digits ≠ []) (all : digits.all Text.isDigit = true) :
      Unsigned digits
  | pointed {whole fraction : List Char} (some : whole ≠ [] ∨ fraction ≠ [])
      (all : whole.all Text.isDigit = true) (all' : fraction.all Text.isDigit = true) :
      Unsigned (whole ++ '.' :: fraction)

/-- A minus may stand directly before the digits. -/
inductive Signed : Numeral → Prop
  | plain {n : Numeral} (h : Unsigned n) : Signed n
  | minus {n : Numeral} (h : Unsigned n) : Signed ('-' :: n)

theorem Unsigned.digit_or_point {n : Numeral} (h : Unsigned n) :
    ∀ c ∈ n, Text.isDigit c = true ∨ c = '.' := by
  intro c hc
  cases h with
  | whole some all => exact .inl (List.all_eq_true.1 all c hc)
  | pointed some all all' =>
    rcases List.mem_append.1 hc with hc | hc
    · exact .inl (List.all_eq_true.1 all c hc)
    · rcases List.mem_cons.1 hc with rfl | hc
      · exact .inr rfl
      · exact .inl (List.all_eq_true.1 all' c hc)

theorem Unsigned.ne_nil {n : Numeral} (h : Unsigned n) : n ≠ [] := by
  cases h with
  | whole some all => exact some
  | pointed some all all' => simp

theorem Signed.ne_nil {n : Numeral} (h : Signed n) : n ≠ [] := by
  cases h with
  | plain h => exact h.ne_nil
  | minus h => exact List.cons_ne_nil _ _

theorem Unsigned.not_blank {n : Numeral} (h : Unsigned n) : ∀ c ∈ n, Text.isBlank c = false := by
  intro c hc
  rcases h.digit_or_point c hc with digit | rfl
  · exact Text.isBlank_of_isDigit_script digit
  · decide

theorem Signed.not_blank {n : Numeral} (h : Signed n) : ∀ c ∈ n, Text.isBlank c = false := by
  cases h with
  | plain h => exact h.not_blank
  | minus h => exact List.forall_mem_cons.2 ⟨by decide, h.not_blank⟩

theorem Unsigned.exists_cons {n : Numeral} (h : Unsigned n) :
    ∃ c cs, n = c :: cs ∧ (Text.isDigit c = true ∨ c = '.') := by
  obtain ⟨c, cs, rfl⟩ := List.exists_cons_of_ne_nil h.ne_nil
  exact ⟨c, cs, rfl, h.digit_or_point c List.mem_cons_self⟩

theorem Unsigned.splitSign {n : Numeral} (h : Unsigned n) : Decimal.splitSign n = (false, n) := by
  obtain ⟨c, cs, rfl, first⟩ := h.exists_cons
  unfold Decimal.splitSign
  split
  · next minus =>
    cases minus
    exact absurd first (by decide)
  · next plus =>
    cases plus
    exact absurd first (by decide)
  · rfl

theorem Ends.blank_append {blank rest : List Char} (hb : blank.all Text.isBlank = true)
    (h : Ends rest) : Ends (blank ++ rest) := by
  cases blank with
  | nil => exact h
  | cons c cs =>
    intro d hd
    obtain rfl : c = d := Option.some.inj hd
    have blank : Text.isBlank c = true := List.all_eq_true.1 hb c List.mem_cons_self
    constructor
    · cases digit : Text.isDigit c with
      | false => rfl
      | true => rw [Text.isBlank_of_isDigit_script digit] at blank; cases blank
    · rintro rfl
      exact absurd blank (by decide)

theorem Ends.of_char {c : Char} {rest : List Char} (h : Text.isDigit c = false ∧ c ≠ '.') : Ends (c :: rest) := by
  intro d hd
  obtain rfl : c = d := Option.some.inj hd
  exact h

theorem unsigned?_append {n rest : List Char} (h : Unsigned n) (ends : Ends rest) :
    unsigned? (n ++ rest) = some (n, rest) := by
  have stop : ∀ c ∈ rest.head?, Text.isDigit c = false := fun c hc => (ends c hc).1
  unfold unsigned?
  cases h with
  | whole some all =>
    obtain ⟨taken, left⟩ := Text.span_append (List.all_eq_true.1 all) stop
    rw [taken, left]
    dsimp only
    split
    · exact absurd rfl (ends '.' rfl).2
    · exact if_neg some
  | @pointed whole fraction some all all' =>
    have point : ∀ c ∈ ('.' :: (fraction ++ rest)).head?, Text.isDigit c = false := by
      intro c hc
      cases hc
      decide
    obtain ⟨taken, left⟩ := Text.span_append (List.all_eq_true.1 all) point
    obtain ⟨taken', left'⟩ := Text.span_append (List.all_eq_true.1 all') stop
    rw [List.append_assoc, List.cons_append, taken, left]
    simp only [taken', left']
    exact if_neg (by tauto)

theorem of_unsigned? {text n rest : List Char} (h : unsigned? text = some (n, rest)) :
    Unsigned n ∧ text = n ++ rest := by
  have parts : text = text.takeWhile Text.isDigit ++ text.dropWhile Text.isDigit :=
    List.takeWhile_append_dropWhile.symm
  have digits : (text.takeWhile Text.isDigit).all Text.isDigit = true := List.all_takeWhile
  unfold unsigned? at h
  dsimp only at h
  split at h
  · next left eq =>
    split at h
    · cases h
    · next some =>
      cases h
      refine ⟨.pointed (by tauto) digits List.all_takeWhile, ?_⟩
      rw [List.append_assoc, List.cons_append, List.takeWhile_append_dropWhile, ← eq]
      exact parts
  · split at h
    · cases h
    · next some =>
      cases h
      exact ⟨.whole some digits, parts⟩

theorem signed?_append {n rest : List Char} (h : Signed n) (ends : Ends rest) :
    signed? (n ++ rest) = some (n, rest) := by
  cases h with
  | minus h =>
    rw [List.cons_append, signed?, unsigned?_append h ends]
    rfl
  | plain h =>
    have read := unsigned?_append h ends
    obtain ⟨c, cs, rfl, first⟩ := h.exists_cons
    unfold signed?
    split
    · next minus =>
      cases minus
      exact absurd first (by decide)
    · exact read

theorem of_signed? {text n rest : List Char} (h : signed? text = some (n, rest)) :
    Signed n ∧ text = n ++ rest := by
  unfold signed? at h
  split at h
  · obtain ⟨⟨m, left⟩, read, same⟩ := Option.map_eq_some_iff.1 h
    cases same
    obtain ⟨unsigned, rfl⟩ := of_unsigned? read
    exact ⟨.minus unsigned, rfl⟩
  · obtain ⟨unsigned, parts⟩ := of_unsigned? h
    exact ⟨.plain unsigned, parts⟩

theorem count?_eq_some_iff {count : Numeral} {n : Nat} : count.count? = some n ↔
    count.all Char.isDigit = true ∧ Decimal.natOfDigits count = n ∧ n < Nat.pow 2 64 := by
  unfold count?
  dsimp only
  constructor
  · intro read
    split at read
    · next ascii =>
      split at read
      · next lt =>
        cases read
        exact ⟨ascii, rfl, lt⟩
      · cases read
    · cases read
  · rintro ⟨ascii, rfl, lt⟩
    rw [if_pos ascii, if_pos lt]

end Numeral

end SettingsSweep

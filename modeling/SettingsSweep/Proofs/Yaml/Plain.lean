import SettingsSweep.Proofs.Yaml.Lines

/-!
Plain scalars. A text that can stand without quotes is read up to its end, before the end of the line or before the
colon of a key.
-/

set_option autoImplicit false

namespace SettingsSweep.Yaml

theorem isGap_eq_beq {c : Char} (printable : isPrintable c = true) : isGap c = (c == ' ') := by
  have tab : c ≠ '\t' := by
    rintro rfl
    revert printable
    decide
  simp [isGap, tab]

theorem skipGap_cons {c : Char} (h : isGap c = false) (rest : List Char) : skipGap (c :: rest) = c :: rest :=
  List.dropWhile_cons_of_neg (by simp [h])

theorem dropGapEnd_append {c : Char} (h : isGap c = false) (body : List Char) :
    dropGapEnd (body ++ [c]) = body ++ [c] := by
  rw [dropGapEnd, List.reverse_append, List.reverse_singleton, List.singleton_append,
    List.dropWhile_cons_of_neg (by simp [h])]
  simp

/-- How a line starts on which there is a value that is no collection in block style. -/
structure StartsInline (text : List Char) : Prop where
  solid : ∃ c rest, text = c :: rest ∧ isGap c = false ∧ c ≠ '#'
  noItem : opensWithMark '-' text = false
  noKey : opensWithMark '?' text = false
  noEntry : keyValue? text = none

/-- What a text can stand as without quotes, in its parts. -/
structure FitsPlain (text : List Char) : Prop where
  starts : startsPlain false text = true
  printable : Printable text
  oneLine : OneLine text
  last : ∃ body c, text = body ++ [c] ∧ isGap c = false
  indicator : hasIndicator text = false
  noStart : opensWithThree '-' text = false
  noEnd : opensWithThree '.' text = false

theorem fitsPlain_iff {text : List Char} (h : fitsPlain text = true) : FitsPlain text := by
  simp only [fitsPlain, Bool.and_eq_true, Bool.not_eq_true', List.all_eq_true] at h
  obtain ⟨⟨⟨⟨⟨starts, all⟩, last⟩, indicator⟩, noStart⟩, noEnd⟩ := h
  refine ⟨starts, fun c mem => (all c mem).1, fun c mem => (all c mem).2, ?_, indicator, noStart, noEnd⟩
  rcases List.eq_nil_or_concat text with rfl | ⟨body, c, rfl⟩
  · cases starts
  · refine ⟨body, c, List.concat_eq_append, ?_⟩
    have space : isSpaceOrBreak c = false := by simpa using last
    rw [isGap_eq_beq (all c (by simp)).1]
    simp only [isSpaceOrBreak, Bool.or_eq_false_iff] at space
    exact space.1

theorem exists_of_startsPlain {text : List Char} (h : startsPlain false text = true) : ∃ c rest,
    text = c :: rest ∧ isGap c = false ∧ c ∉ ['#', '"', '\'', '|', '>', '[', '\x7b', '%'] := by
  cases text with
  | nil => cases h
  | cons c rest =>
    refine ⟨c, rest, rfl, ?_⟩
    rw [startsPlain] at h
    split at h
    · next hc => subst hc; decide
    · split at h
      · next hc => rcases hc with rfl | rfl <;> decide
      · simp only [Bool.and_eq_true, Bool.not_eq_true'] at h
        refine ⟨h.2, fun mem => ?_⟩
        have reserved : isReserved c = false := h.1
        simp only [List.mem_cons, List.not_mem_nil, or_false] at mem
        rcases mem with rfl | rfl | rfl | rfl | rfl | rfl | rfl | rfl <;> revert reserved <;> decide

theorem FitsPlain.head?_ne {text : List Char} (h : FitsPlain text) : text.head? ≠ some ' ' := by
  obtain ⟨c, rest, rfl, gap, -⟩ := exists_of_startsPlain h.starts
  rintro ⟨⟩
  cases gap

/-- Where a plain scalar in a block ends: at the end of the line or at the colon of a key. -/
def AtEnd (after : List Char) : Prop := after = [] ∨ ∃ value, after = ':' :: value ∧ atGap value = true

theorem plainSpan_append {text after : List Char} (indicator : hasIndicator text = false) (ends : AtEnd after)
    {afterGap : Bool} (start : afterGap = true → text.head? ≠ some '#') :
    plainSpan false afterGap (text ++ after) = (text, after) := by
  induction text generalizing afterGap with
  | nil =>
    rcases ends with rfl | ⟨value, rfl, gap⟩
    · rfl
    · simp [plainSpan, gap]
  | cons c rest ih =>
    simp only [hasIndicator, Bool.or_eq_false_iff] at indicator
    obtain ⟨⟨colon, comment⟩, indicator⟩ := indicator
    have here : (c == '#' && afterGap) = false := by
      cases afterGap with
      | false => simp
      | true => simpa using start rfl
    have next : (c == ':' && atGap (rest ++ after)) = false := by
      cases rest with
      | nil => simp_all [atGap]
      | cons d rest => exact colon
    have later : plainSpan false (isGap c) (rest ++ after) = (rest, after) :=
      ih indicator fun gap hash => by simp [gap, hash] at comment
    rw [List.cons_append, plainSpan, here, next, later]
    rfl

theorem plainSpan_of_fitsPlain {text after : List Char} (h : FitsPlain text) (ends : AtEnd after) :
    plainSpan false false (text ++ after) = (text, after) :=
  plainSpan_append h.indicator ends fun absurd => by cases absurd

theorem startsPlain_append {text : List Char} (h : startsPlain false text = true) (more : List Char) :
    startsPlain false (text ++ more) = true := by
  cases text with
  | nil => cases h
  | cons c rest =>
    have next (dense : atGap rest = false) : atGap (rest ++ more) = false := by
      cases rest with
      | nil => cases dense
      | cons d rest => exact dense
    simp only [List.cons_append, startsPlain] at h ⊢
    split at h
    · simp_all
    · split at h <;> simp_all

theorem FitsPlain.dropGapEnd {text : List Char} (h : FitsPlain text) : dropGapEnd text = text := by
  obtain ⟨body, c, rfl, hc⟩ := h.last
  exact dropGapEnd_append hc body

theorem plainMore_of_stops {column : Nat} {rest : List Line} (stops : Stops column rest) (breaks : Breaks) :
    plainMore false (column + 1) breaks rest = some ([], .done :: rest) := by
  cases rest with
  | nil => rfl
  | cons line lines =>
    obtain ⟨before, c, text, shown, -, -⟩ := stops line rfl
    have shallow : ¬ column + 1 ≤ line.indent := by omega
    rw [plainMore]
    simp [shown, shallow]

theorem plain?_of_fitsPlain {column : Nat} {rest : List Line} (stops : Stops column rest) {text : List Char}
    (h : FitsPlain text) (indent : Nat) :
    plain? false (column + 1) (⟨indent, text, ['\n']⟩ :: rest) = some (text, .done :: rest) := by
  have span := plainSpan_of_fitsPlain h (.inl rfl)
  rw [List.append_nil] at span
  simp [plain?, span, losesColon, plainMore_of_stops stops, h.dropGapEnd]

theorem leaf?_of_fitsPlain {column : Nat} {rest : List Line} (stops : Stops column rest) {text : List Char}
    (h : FitsPlain text) (indent : Nat) :
    leaf? false (column + 1) (⟨indent, text, ['\n']⟩ :: rest) =
      some (⟨String.ofList text, true⟩, .done :: rest) := by
  obtain ⟨c, tail, rfl, -, hc⟩ := exists_of_startsPlain h.starts
  simp only [List.mem_cons, List.not_mem_nil, or_false, not_or] at hc
  rw [leaf?]
  simp [hc, h.starts, plain?_of_fitsPlain stops h]

theorem keyValue?_of_fitsPlain {text value : List Char} (h : FitsPlain text) (gap : atGap value = true)
    (short : text.length ≤ maxKey) : keyValue? (text ++ ':' :: value) = some (String.ofList text, value) := by
  have span := plainSpan_of_fitsPlain h (.inr ⟨value, rfl, gap⟩)
  have starts := startsPlain_append h.starts (':' :: value)
  have whole := h.dropGapEnd
  have bound : (text ++ ':' :: value).length ≤ value.length + 1 + maxKey := by
    rw [List.length_append, List.length_cons]
    omega
  obtain ⟨c, tail, rfl, -, hc⟩ := exists_of_startsPlain h.starts
  simp only [List.mem_cons, List.not_mem_nil, or_false, not_or] at hc
  have noQuote : ¬ (c = '"' ∨ c = '\'') := not_or.2 ⟨hc.2.1, hc.2.2.1⟩
  rw [List.cons_append] at starts span bound ⊢
  simp only [keyValue?, if_neg noQuote, if_pos starts, span, whole]
  exact if_pos ⟨gap, bound⟩

theorem keyValue?_eq_none_of_fitsPlain {text : List Char} (h : FitsPlain text) : keyValue? text = none := by
  have span := plainSpan_of_fitsPlain h (.inl rfl)
  rw [List.append_nil] at span
  have starts := h.starts
  obtain ⟨c, tail, rfl, -, hc⟩ := exists_of_startsPlain h.starts
  simp only [List.mem_cons, List.not_mem_nil, or_false, not_or] at hc
  unfold keyValue?
  simp [hc, starts, span]

theorem opensWithMark_of_startsPlain {text : List Char} (h : startsPlain false text = true) :
    opensWithMark '-' text = false ∧ opensWithMark '?' text = false := by
  cases text with
  | nil => cases h
  | cons c rest =>
    constructor
    · by_cases mark : c = '-'
      · subst mark
        simpa [startsPlain, opensWithMark] using h
      · simp [opensWithMark, mark]
    · by_cases mark : c = '?'
      · subst mark
        simpa [startsPlain, opensWithMark] using h
      · simp [opensWithMark, mark]

theorem startsInline_of_fitsPlain {text : List Char} (h : FitsPlain text) : StartsInline text := by
  obtain ⟨c, rest, shown, gap, hc⟩ := exists_of_startsPlain h.starts
  obtain ⟨noItem, noKey⟩ := opensWithMark_of_startsPlain h.starts
  exact ⟨⟨c, rest, shown, gap, fun hash => hc (by simp [hash])⟩, noItem, noKey, keyValue?_eq_none_of_fitsPlain h⟩

end SettingsSweep.Yaml

import SettingsSweep.Proofs.Yaml.Literal

/-!
Texts as scalars, in whatever style they are written, and as keys.
-/

set_option autoImplicit false

namespace SettingsSweep.Yaml

theorem style_cases (text : String) :
    (Style.of text = .plain ∧ needsQuotes text = false ∧ FitsPlain text.toList) ∨
    (Style.of text = .single ∧ FitsSingle text.toList) ∨ Style.of text = .double ∨
    (Style.of text = .literal ∧ text.toList ≠ [] ∧ fitsLiteral text.toList = true) := by
  rw [Style.of]
  split
  · next feed =>
    split
    · next fits => exact .inr (.inr (.inr ⟨rfl, List.ne_nil_of_mem feed, fits⟩))
    · exact .inr (.inr (.inl rfl))
  · next feed =>
    split
    · next fits =>
      simp only [Bool.and_eq_true, Bool.not_eq_true'] at fits
      exact .inl ⟨rfl, fits.1, fitsPlain_iff fits.2⟩
    · split
      · next fits =>
        simp only [fitsSingle, Bool.and_eq_true, Bool.not_eq_true', List.all_eq_true] at fits
        exact .inr (.inl ⟨rfl, fits.1.1, feed, fits.1.2, fits.2⟩)
      · exact .inr (.inr (.inl rfl))

theorem printable_singleFrom {text : List Char} (h : Printable text) (indent : Nat) (afterBreak : Bool) :
    Printable (singleFrom indent afterBreak text) := by
  have blank (afterBreak : Bool) : Printable (if afterBreak then spaces indent else []) := by
    cases afterBreak
    · exact .nil
    · exact .spaces indent
  induction text generalizing afterBreak with
  | nil => exact (blank afterBreak).append (by decide)
  | cons c text ih =>
    obtain ⟨hc, later⟩ := List.forall_mem_cons.1 h
    rw [singleFrom]
    split
    · exact .cons hc (ih later true)
    · refine ((blank afterBreak).append ?_).append (ih later false)
      split
      · decide
      · exact .cons hc (by decide)

theorem printable_literalFrom {text : List Char} (h : Printable text) (indent : Nat) (afterBreak : Bool) :
    Printable (literalFrom indent afterBreak text) := by
  induction text generalizing afterBreak with
  | nil => exact .nil
  | cons c text ih =>
    obtain ⟨hc, later⟩ := List.forall_mem_cons.1 h
    rw [literalFrom]
    split
    · exact .cons hc (ih later true)
    · refine Printable.append ?_ (.cons hc (ih later false))
      cases afterBreak
      · exact .nil
      · exact .spaces indent

theorem written_literalFrom {text : List Char} (h : Written text) (indent : Nat) :
    Written (literalFrom indent true text) := by
  refine ⟨printable_literalFrom h.printable indent true, ?_⟩
  obtain ⟨body, b, rfl, hb⟩ := h.ended
  exact ⟨_, b, literalFrom_concat hb.isBreak indent true body, hb⟩

theorem written_writtenText (indent : Nat) (text : String) : Written (writtenText indent text) := by
  rw [writtenText]
  rcases style_cases text with ⟨style, -, fits⟩ | ⟨style, fits⟩ | style | ⟨style, filled, fits⟩
  all_goals rw [style]
  · exact .line fits.printable
  · exact .line (.cons rfl (printable_singleFrom fits.printable indent false))
  · refine .line (.cons rfl (Printable.append (fun d mem => (shown_withEscapes _ d mem).1) (by decide)))
  · simp only [fitsLiteral, Bool.and_eq_true, List.all_eq_true] at fits
    change Written (literalBlock indent text.toList)
    rw [literalBlock_eq, literalHeader_eq]
    refine Written.prepend (.cons rfl (shown_marks _ _).1) (.cons rfl ?_)
    exact written_literalFrom (written_ended filled fits.1.1) indent

theorem exists_startsInline (indent : Nat) (text : String) : ∃ first b tail,
    writtenText indent text = first ++ b :: tail ∧ OneLine first ∧ IsEnd b ∧ StartsInline first ∧
      first.head? ≠ some '[' ∧ first.head? ≠ some '\x7b' := by
  rw [writtenText]
  rcases style_cases text with ⟨style, -, fits⟩ | ⟨style, fits⟩ | style | ⟨style, filled, fits⟩
  all_goals rw [style]
  · obtain ⟨c, rest, shown, -, hc⟩ := exists_of_startsPlain fits.starts
    refine ⟨text.toList, '\n', [], rfl, fits.oneLine, .inl rfl, startsInline_of_fitsPlain fits, ?_⟩
    rw [shown]
    simp only [List.mem_cons, List.not_mem_nil, or_false, not_or] at hc
    simp [hc]
  · obtain ⟨first, b, tail, same, plain, hb, starts⟩ := startsInline_singleQuoted indent fits
    refine ⟨first, b, tail, same, plain, hb, starts, ?_⟩
    have head : (first ++ b :: tail).head? = some '\'' := congrArg List.head? same.symm
    obtain ⟨c, rest, rfl, -, -⟩ := starts.solid
    obtain rfl : c = '\'' := by simpa using head
    simp
  · exact ⟨doubleQuoted text.toList, '\n', [], rfl, oneLine_doubleQuoted _, .inl rfl,
      startsInline_doubleQuoted _, by simp [doubleQuoted_eq], by simp [doubleQuoted_eq]⟩
  · refine ⟨literalHeader text.toList, '\n', _, literalBlock_eq indent _, ?_, .inl rfl, ?_, ?_, ?_⟩
    · exact .cons rfl (shown_marks _ _).2
    · exact ⟨⟨'|', _, rfl, rfl, by decide⟩, rfl, rfl, rfl⟩
    · simp [literalHeader_eq]
    · simp [literalHeader_eq]

theorem leaf?_writtenText {column : Nat} {rest : List Line} (stops : Stops column rest) (text : String)
    (start : Nat) : ∃ plain last,
      leaf? false (column + 1) (linesOf (spaces start ++ writtenText (column + 2) text) ++ rest) =
        some (⟨text, plain⟩, last :: rest) ∧ last.text = [] ∧ Leaf.value ⟨text, plain⟩ = .text text := by
  have same : String.ofList text.toList = text := String.ofList_toList
  rw [writtenText]
  rcases style_cases text with ⟨style, bare, fits⟩ | ⟨style, fits⟩ | style | ⟨style, filled, fits⟩
  all_goals rw [style]
  · refine ⟨true, .done, ?_, rfl, resolve_of_not_needsQuotes bare⟩
    have line := linesOf_line ((OneLine.spaces start).append fits.oneLine) (.inl rfl) []
    rw [Line.of_spaces fits.head?_ne] at line
    have read := leaf?_of_fitsPlain stops fits start
    rw [same] at read
    dsimp only
    rw [← List.append_assoc, line]
    exact read
  · obtain ⟨last, read⟩ := leaf?_singleQuoted (Nat.succ_pos (column + 1)) fits (column + 1) start rest
    rw [same] at read
    exact ⟨false, _, read, rfl, rfl⟩
  · have read := leaf?_doubleQuoted text.toList (column + 1) start rest
    rw [same] at read
    exact ⟨false, _, read, rfl, rfl⟩
  · have read := leaf?_literalBlock stops filled fits start
    rw [same] at read
    exact ⟨false, _, read, rfl, rfl⟩

end SettingsSweep.Yaml

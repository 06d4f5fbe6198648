import SettingsSweep.Proofs.Yaml.Keys

/-!
Values in a document, as they are written and read: on the rest of a line, beside the mark of a list item, and after
the colon of a key.
-/

set_option autoImplicit false

namespace SettingsSweep.Yaml

/-- What can be told from its text: numbers are spelled as numbers, and no key comes twice. -/
inductive Writable : ConfigTree → Prop
  | null : Writable .null
  | bool (b : Bool) : Writable (.bool b)
  | number {spelling : String} (plain : fitsPlain spelling.toList = true)
    (means : resolve spelling = .number spelling) : Writable (.number spelling)
  | text (s : String) : Writable (.text s)
  | list {items : List ConfigTree} (all : ∀ item ∈ items, Writable item) : Writable (.list items)
  | dict {entries : Dict ConfigTree} (apart : entries.keys.Nodup)
    (all : ∀ entry ∈ entries, Writable entry.2) : Writable (.dict entries)

/-- A value that starts on the rest of a line and is no collection in block style. -/
structure ReadsInline (column : Nat) (text : List Char) (value : ConfigTree) : Prop where
  written : Written text
  first : ∃ first b tail, text = first ++ b :: tail ∧ OneLine first ∧ IsEnd b ∧ StartsInline first
  read : ∀ {rest : List Line} (start fuel : Nat), Stops column rest →
    inlineValue (fuel + 3) (column + 1) (linesOf (spaces start ++ text) ++ rest) = some (value, rest)

theorem StartsInline.head?_ne {first : List Char} (h : StartsInline first) : first.head? ≠ some ' ' := by
  obtain ⟨c, rest, rfl, gap, -⟩ := h.solid
  rintro ⟨⟩
  cases gap

theorem linesOf_startsInline {first : List Char} (starts : StartsInline first) (plain : OneLine first) {b : Char}
    (hb : IsEnd b) (start : Nat) (tail : List Char) :
    linesOf (spaces start ++ (first ++ b :: tail)) = ⟨start, first, [b]⟩ :: linesOf tail := by
  have lines := linesOf_line ((OneLine.spaces start).append plain) hb tail
  rwa [Line.of_spaces starts.head?_ne, List.append_assoc] at lines

theorem endInline_of_empty {line : Line} (empty : line.text = []) (lines : List Line) :
    endInline (line :: lines) = some lines := by
  rw [endInline, empty]
  rfl

theorem inlineValue_of_leaf {line last : Line} {lines rest : List Line} {leaf : Leaf} {least : Nat}
    (noList : line.text.head? ≠ some '[') (noDict : line.text.head? ≠ some '\x7b')
    (read : leaf? false least (line :: lines) = some (leaf, last :: rest)) (empty : last.text = []) (fuel : Nat) :
    inlineValue (fuel + 1) least (line :: lines) = some (leaf.value, rest) := by
  simp [inlineValue, noList, noDict, read, endInline_of_empty empty]

theorem readsInline_text (column : Nat) (text : String) :
    ReadsInline column (writtenText (column + 2) text) (.text text) := by
  obtain ⟨first, b, tail, same, plain, hb, starts, noList, noDict⟩ := exists_startsInline (column + 2) text
  refine ⟨written_writtenText _ text, ⟨first, b, tail, same, plain, hb, starts⟩, fun start fuel stops => ?_⟩
  obtain ⟨isPlain, last, read, empty, value⟩ := leaf?_writtenText stops text start
  rw [same, linesOf_startsInline starts plain hb, List.cons_append] at read ⊢
  rw [inlineValue_of_leaf noList noDict read empty, value]

theorem readsInline_plain (column : Nat) (spelling : String) (fits : fitsPlain spelling.toList = true) :
    ReadsInline column (spelling.toList ++ ['\n']) (resolve spelling) := by
  have fits := fitsPlain_iff fits
  have starts := startsInline_of_fitsPlain fits
  have same : String.ofList spelling.toList = spelling := String.ofList_toList
  refine ⟨.line fits.printable, ⟨spelling.toList, '\n', [], rfl, fits.oneLine, .inl rfl, starts⟩,
    fun start fuel stops => ?_⟩
  obtain ⟨c, rest, shown, -, hc⟩ := exists_of_startsPlain fits.starts
  simp only [List.mem_cons, List.not_mem_nil, or_false, not_or] at hc
  have read := leaf?_of_fitsPlain stops fits start
  rw [same] at read
  rw [linesOf_startsInline starts fits.oneLine (.inl rfl), List.cons_append]
  exact inlineValue_of_leaf (by simp [shown, hc]) (by simp [shown, hc]) read rfl (fuel + 2)

theorem Line.bounds_of_two (indent : Nat) (a b : Char) (ending : List Char) :
    Line.bounds ⟨indent, [a, b], ending⟩ = false := by
  cases indent <;> rfl

theorem Line.bounds_of_one (indent : Nat) (a : Char) (ending : List Char) :
    Line.bounds ⟨indent, [a], ending⟩ = false := by
  cases indent <;> rfl

theorem readsInline_emptyList (column : Nat) : ReadsInline column "[]\n".toList (.list []) := by
  have starts : StartsInline ['[', ']'] := ⟨⟨'[', _, rfl, rfl, by decide⟩, rfl, rfl, rfl⟩
  have whole : "[]\n".toList = ['[', ']'] ++ ['\n'] := rfl
  rw [whole]
  refine ⟨.line (by decide), ⟨_, '\n', [], rfl, by decide, .inl rfl, starts⟩, fun start fuel _ => ?_⟩
  rw [linesOf_startsInline starts (by decide) (.inl rfl)]
  simp [inlineValue, flowValue, flowItems, flowMark?, flowStart, Line.bounds_of_two, Line.bounds_of_one, skipGap,
    isGap, endsLine, endInline, Line.rest, linesOf, linesFrom]

theorem readsInline_emptyDict (column : Nat) : ReadsInline column "\x7b\x7d\n".toList (.dict []) := by
  have starts : StartsInline ['\x7b', '\x7d'] := ⟨⟨'\x7b', _, rfl, rfl, by decide⟩, rfl, rfl, rfl⟩
  have whole : "\x7b\x7d\n".toList = ['\x7b', '\x7d'] ++ ['\n'] := rfl
  rw [whole]
  refine ⟨.line (by decide), ⟨_, '\n', [], rfl, by decide, .inl rfl, starts⟩, fun start fuel _ => ?_⟩
  rw [linesOf_startsInline starts (by decide) (.inl rfl)]
  simp [inlineValue, flowValue, flowEntries, flowMark?, flowStart, Line.bounds_of_two, Line.bounds_of_one, skipGap,
    isGap, endsLine, endInline, Line.rest, linesOf, linesFrom]

structure ReadsBeside (column : Nat) (text : List Char) (value : ConfigTree) : Prop where
  written : Written text
  first : ∃ line lines, linesOf (spaces (column + 2) ++ text) = line :: lines ∧ line.indent = column + 2 ∧
    line.IsSolid
  read : ∀ {rest : List Line} (fuel : Nat), Stops column rest → 2 * text.length + 2 ≤ fuel →
    blockValue fuel (column + 1) (linesOf (spaces (column + 2) ++ text) ++ rest) = some (value, rest)

theorem StartsInline.isSolid {first : List Char} (h : StartsInline first) (start : Nat) (ending : List Char) :
    Line.IsSolid ⟨start, first, ending⟩ := h.solid

theorem blockValue_of_inline {first ending : List Char} (starts : StartsInline first) {least start : Nat}
    (deep : least < start) (lines : List Line) (fuel : Nat) :
    blockValue (fuel + 1) least (⟨start, first, ending⟩ :: lines) =
      inlineValue fuel least (⟨start, first, ending⟩ :: lines) := by
  have solid := skipLines_of_isSolid (starts.isSolid start ending) lines
  have bounds : Line.bounds ⟨start, first, ending⟩ = false := Line.bounds_of_indent (Nat.zero_lt_of_lt deep)
  have shallow : ¬ start < least := by omega
  simp [blockValue, solid, bounds, shallow, starts.noItem, starts.noKey, starts.noEntry]

theorem Written.length_pos {text : List Char} (h : Written text) : 0 < text.length :=
  List.length_pos_iff.2 h.ne_nil

theorem ReadsInline.beside {column : Nat} {text : List Char} {value : ConfigTree}
    (h : ReadsInline column text value) : ReadsBeside column text value := by
  obtain ⟨first, b, tail, same, plain, hb, starts⟩ := h.first
  have lines := linesOf_startsInline starts plain hb (column + 2) tail
  refine ⟨h.written, ?_, fun fuel stops enough => ?_⟩
  · rw [same, lines]
    exact ⟨_, _, rfl, rfl, starts.isSolid _ _⟩
  · have pos := h.written.length_pos
    obtain ⟨more, rfl⟩ := Nat.exists_eq_add_of_le (show 4 ≤ fuel by omega)
    have read := h.read (column + 2) more stops
    rw [same, lines, List.cons_append] at read ⊢
    rw [Nat.add_comm 4, blockValue_of_inline starts (by omega)]
    exact read

def StopsItems (column : Nat) (lines : List Line) : Prop :=
  Stops column lines ∧ ∀ line ∈ lines.head?, line.indent = column → opensWithMark '-' line.text = false

/-- A value after a colon: on the rest of the line, or on lines of its own. -/
structure ReadsAfter (column : Nat) (text : List Char) (value : ConfigTree) : Prop where
  written : Written text
  read : ∃ first b more, text = first ++ b :: more ∧ OneLine first ∧ IsEnd b ∧ atGap first = true ∧
    ∀ {rest : List Line} (fuel : Nat), StopsItems column rest → 2 * text.length + 2 ≤ fuel →
      (if endsLine (skipGap first) then entryValue fuel column (linesOf more ++ rest)
        else inlineValue fuel (column + 1) (⟨column + 1, skipGap first, [b]⟩ :: (linesOf more ++ rest))) =
        some (value, rest)

theorem ReadsInline.after {column : Nat} {text : List Char} {value : ConfigTree}
    (h : ReadsInline column text value) : ReadsAfter column (' ' :: text) value := by
  obtain ⟨first, b, tail, same, plain, hb, starts⟩ := h.first
  refine ⟨h.written.cons rfl, ' ' :: first, b, tail, by rw [same]; rfl,
    plain.cons rfl, hb, rfl, fun fuel stops enough => ?_⟩
  obtain ⟨c, rest, shown, gap, hash⟩ := starts.solid
  have skipped : skipGap (' ' :: first) = first := by
    rw [shown]
    exact skipGap_cons gap rest
  have filled : endsLine first = false := by simp [shown, endsLine, hash]
  have pos := h.written.length_pos
  rw [List.length_cons] at enough
  obtain ⟨more, rfl⟩ := Nat.exists_eq_add_of_le (show 3 ≤ fuel by omega)
  have read := h.read (column + 1) more stops.1
  rw [same, linesOf_startsInline starts plain hb, List.cons_append] at read
  rw [skipped, filled, Nat.add_comm 3]
  exact read

end SettingsSweep.Yaml

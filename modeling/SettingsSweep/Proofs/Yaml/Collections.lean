import SettingsSweep.Proofs.Yaml.Values

/-!
Collections in block style. If their members are read back, so are they: each item beside its mark, each entry after
its key, and all of them up to the line on which the lines go on before their column.
-/

set_option autoImplicit false

namespace SettingsSweep.Yaml

theorem Line.afterMark_eq (column : Nat) (mark : Char) (first ending : List Char) :
    Line.afterMark ⟨column, mark :: ' ' :: first, ending⟩ = Line.of (spaces (column + 2) ++ first) ending := by
  have skipped : (spaces (column + 2) ++ first).dropWhile (· = ' ') = first.dropWhile (· = ' ') :=
    List.dropWhile_append_of_pos (by simp [spaces])
  have shorter := (List.dropWhile_sublist (· = ' ') (l := first)).length_le
  rw [afterMark, of, skipped]
  simp [spaces]
  omega

/-- A mark at a column, and what stands beside it two columns later. -/
theorem exists_linesOf_mark (column : Nat) (mark : Char) (solid : isBreak mark = false) (dark : mark ≠ ' ')
    {text : List Char} (h : Written text) : ∃ first ending lines,
      linesOf (spaces column ++ mark :: ' ' :: text) = ⟨column, mark :: ' ' :: first, ending⟩ :: lines ∧
      Line.afterMark ⟨column, mark :: ' ' :: first, ending⟩ :: lines = linesOf (spaces (column + 2) ++ text) := by
  obtain ⟨first, b, tail, rfl, plain, hb⟩ := h.exists_line
  have marked : OneLine (spaces column ++ mark :: ' ' :: first) :=
    (OneLine.spaces column).append (.cons solid (.cons rfl plain))
  have line := linesOf_line marked hb tail
  rw [Line.of_spaces (by simpa using dark)] at line
  have beside := linesOf_line ((OneLine.spaces (column + 2)).append plain) hb tail
  refine ⟨first, [b], linesOf tail, ?_, ?_⟩
  · simpa using line
  · rw [Line.afterMark_eq, ← beside, List.append_assoc]

section Items

variable {column : Nat}

theorem writtenItems_cons (column : Nat) (item : ConfigTree) (items : List ConfigTree) :
    writtenItems column (item :: items) =
      spaces column ++ '-' :: ' ' :: besideMark (column + 2) item ++ writtenItems column items := by
  rw [writtenItems]

theorem written_item {text : List Char} (h : Written text) (column : Nat) :
    Written (spaces column ++ '-' :: ' ' :: text) :=
  .prepend (.spaces column) (.cons rfl (.cons rfl h))

theorem written_writtenItems {items : List ConfigTree} (filled : items ≠ [])
    (all : ∀ item ∈ items, ReadsBeside column (besideMark (column + 2) item) item) :
    Written (writtenItems column items) := by
  induction items with
  | nil => exact absurd rfl filled
  | cons item items ih =>
    obtain ⟨here, later⟩ := List.forall_mem_cons.1 all
    have first := written_item here.written column
    rw [writtenItems_cons]
    by_cases last : items = []
    · rw [last, writtenItems, List.append_nil]
      exact first
    · exact first.append (ih last later)

theorem exists_linesOf_items {item : ConfigTree}
    (here : ReadsBeside column (besideMark (column + 2) item) item) (items : List ConfigTree) : ∃ first ending lines,
      linesOf (writtenItems column (item :: items)) = ⟨column, '-' :: ' ' :: first, ending⟩ ::
        (lines ++ linesOf (writtenItems column items)) ∧
      Line.afterMark ⟨column, '-' :: ' ' :: first, ending⟩ :: lines =
        linesOf (spaces (column + 2) ++ besideMark (column + 2) item) := by
  obtain ⟨first, ending, lines, written, beside⟩ :=
    exists_linesOf_mark column '-' rfl (by decide) here.written
  refine ⟨first, ending, lines, ?_, beside⟩
  rw [writtenItems_cons, (written_item here.written column).linesOf_append, written, List.cons_append]

theorem isSolid_item (column : Nat) (first ending : List Char) :
    Line.IsSolid ⟨column, '-' :: ' ' :: first, ending⟩ := ⟨'-', _, rfl, rfl, by decide⟩

theorem stops_writtenItems {items : List ConfigTree} {rest : List Line} (stops : Stops column rest)
    (all : ∀ item ∈ items, ReadsBeside column (besideMark (column + 2) item) item) :
    Stops column (linesOf (writtenItems column items) ++ rest) := by
  cases items with
  | nil => exact stops
  | cons item items =>
    obtain ⟨first, ending, lines, written, -⟩ := exists_linesOf_items (all item (by simp)) items
    rw [written]
    rintro line ⟨⟩
    exact ⟨Nat.le_refl column, isSolid_item column first ending⟩

/-- By induction on the items, each of which stops at the mark of the next. -/
theorem blockItems_writtenItems {items : List ConfigTree}
    (all : ∀ item ∈ items, ReadsBeside column (besideMark (column + 2) item) item) {rest : List Line}
    (stops : StopsItems column rest) (fuel : Nat)
    (enough : 2 * ((writtenItems column items).length - column) + 1 ≤ fuel) :
    blockItems fuel column (linesOf (writtenItems column items) ++ rest) = some (items, rest) := by
  induction items generalizing fuel with
  | nil =>
    obtain ⟨more, rfl⟩ := Nat.exists_eq_add_of_le (show 1 ≤ fuel by omega)
    have solid := stops.1.skipLines
    change blockItems (1 + more) column rest = _
    rw [Nat.add_comm, blockItems, solid]
    cases rest with
    | nil => rfl
    | cons line lines =>
      have other : ¬ (line.indent = column ∧ opensWithMark '-' line.text = true) := by
        rintro ⟨same, mark⟩
        rw [stops.2 line rfl same] at mark
        cases mark
      simp [other]
  | cons item items ih =>
    obtain ⟨here, later⟩ := List.forall_mem_cons.1 all
    obtain ⟨first, ending, lines, written, beside⟩ := exists_linesOf_items here items
    have length := congrArg List.length (writtenItems_cons column item items)
    simp only [List.length_append, List.length_cons, spaces, List.length_replicate] at length
    obtain ⟨more, rfl⟩ := Nat.exists_eq_add_of_le (show 1 ≤ fuel by omega)
    have value := here.read more (stops_writtenItems stops.1 later) (by omega)
    rw [← beside, List.cons_append] at value
    have others := ih later more (by omega)
    rw [written, List.cons_append, List.append_assoc, Nat.add_comm 1, blockItems,
      skipLines_of_isSolid (isSolid_item column first ending)]
    simp [opensWithMark, atGap, isGap, value, others]

end Items

/-- An entry at a column is read up to the next. -/
structure ReadsEntry (column : Nat) (text : List Char) (key : String) (value : ConfigTree) : Prop where
  written : Written (spaces column ++ text)
  first : ∃ line lines, linesOf (spaces column ++ text) = line :: lines ∧ line.indent = column ∧
    StartsEntry line.text ∧ (opensWithMark '?' line.text || (keyValue? line.text).isSome) = true
  read : ∀ {rest : List Line} (fuel : Nat) (known : Dict ConfigTree), StopsItems column rest →
    2 * text.length ≤ fuel → blockEntries (fuel + 1) column known (linesOf (spaces column ++ text) ++ rest) =
      blockEntries fuel column (known.put key value) rest

theorem StartsEntry.isSolid {line : Line} (h : StartsEntry line.text) : line.IsSolid := by
  obtain ⟨c, rest, shown, gap, hash, -⟩ := h.solid
  exact ⟨c, rest, shown, gap, hash⟩

section Entries

variable {column : Nat}

theorem readsEntry_simple {key : String} (simple : isSimpleKey key = true) {text : List Char} {value : ConfigTree}
    (h : ReadsAfter column text value) : ReadsEntry column (writtenKey key ++ ':' :: text) key value := by
  have named := readsKey_writtenKey simple
  obtain ⟨first, b, more, rfl, plain, hb, gap, read⟩ := h.read
  have starts := named.starts first
  have noMark := named.noMark first
  have keyed := named.read first gap
  have line : OneLine (spaces column ++ (writtenKey key ++ ':' :: first)) :=
    (OneLine.spaces column).append (named.oneLine.append (.cons rfl plain))
  have lines := linesOf_line line hb more
  have start : (writtenKey key ++ ':' :: first).head? ≠ some ' ' := by
    obtain ⟨c, rest, shown, space, -⟩ := starts.solid
    rw [shown]
    rintro ⟨⟩
    cases space
  rw [Line.of_spaces start] at lines
  have whole : spaces column ++ (writtenKey key ++ ':' :: (first ++ b :: more)) =
      spaces column ++ (writtenKey key ++ ':' :: first) ++ b :: more := by simp
  refine ⟨?_, ?_, fun fuel known stops enough => ?_⟩
  · exact .prepend (.spaces column) (.prepend named.printable (.cons rfl h.written))
  · rw [whole, lines]
    exact ⟨_, _, rfl, rfl, starts, by simp [keyed]⟩
  · have value := read fuel stops (by simp at enough ⊢; omega)
    have bounds : Line.bounds ⟨column, writtenKey key ++ ':' :: first, [b]⟩ = false := starts.bounds
    have solid : Line.IsSolid ⟨column, writtenKey key ++ ':' :: first, [b]⟩ := starts.isSolid
    rw [whole, lines, List.cons_append, blockEntries, skipLines_of_isSolid solid]
    cases ends : endsLine (skipGap first) with
    | true =>
      rw [ends, if_pos rfl] at value
      simp [bounds, noMark, keyed, ends, value]
    | false =>
      rw [ends, if_neg Bool.false_ne_true] at value
      simp [bounds, noMark, keyed, ends, Line.rest, value]

theorem entryValue_of_beside {text : List Char} {value : ConfigTree} (h : ReadsBeside column text value)
    {rest : List Line} (stops : Stops column rest) (fuel : Nat) (enough : 2 * text.length + 3 ≤ fuel) :
    entryValue fuel column (linesOf (spaces (column + 2) ++ text) ++ rest) = some (value, rest) := by
  obtain ⟨line, lines, written, indent, solid⟩ := h.first
  obtain ⟨more, rfl⟩ := Nat.exists_eq_add_of_le (show 1 ≤ fuel by omega)
  have read := h.read more stops (by omega)
  rw [written, List.cons_append] at read ⊢
  have other : ¬ line.indent = column := by omega
  rw [Nat.add_comm 1, entryValue, skipLines_of_isSolid solid]
  simp [other, read]

theorem explicitKey_writtenText (key : String) {rest : List Line} (stops : Stops column rest) :
    blockEntries.explicitKey column (linesOf (spaces (column + 2) ++ writtenText (column + 2) key) ++ rest) =
      some (key, rest) := by
  obtain ⟨line, lines, written, indent, solid⟩ := (readsInline_text column key).beside.first
  obtain ⟨isPlain, last, read, empty, -⟩ := leaf?_writtenText stops key (column + 2)
  rw [written, List.cons_append] at read ⊢
  have deep : ¬ line.indent ≤ column := by omega
  rw [blockEntries.explicitKey, skipLines_of_isSolid solid]
  simp [deep, read, endInline_of_empty empty]

theorem readsEntry_explicit (key : String) {text : List Char} {value : ConfigTree}
    (h : ReadsBeside column text value) : ReadsEntry column
      ('?' :: ' ' :: writtenText (column + 2) key ++ spaces column ++ ':' :: ' ' :: text) key value := by
  have keyText := written_writtenText (column + 2) key
  have asked : Written (spaces column ++ '?' :: ' ' :: writtenText (column + 2) key) :=
    .prepend (.spaces column) (.cons rfl (.cons rfl keyText))
  have told : Written (spaces column ++ ':' :: ' ' :: text) :=
    .prepend (.spaces column) (.cons rfl (.cons rfl h.written))
  obtain ⟨first, ending, lines, question, besideQuestion⟩ :=
    exists_linesOf_mark column '?' rfl (by decide) keyText
  obtain ⟨first', ending', lines', colon, besideColon⟩ :=
    exists_linesOf_mark column ':' rfl (by decide) h.written
  have whole : spaces column ++ ('?' :: ' ' :: writtenText (column + 2) key ++ spaces column ++ ':' :: ' ' :: text) =
      (spaces column ++ '?' :: ' ' :: writtenText (column + 2) key) ++ (spaces column ++ ':' :: ' ' :: text) := by
    simp
  have starts : StartsEntry ('?' :: ' ' :: first) := startsEntry_of_mark (by decide) _
  have shown : linesOf (spaces column ++ ('?' :: ' ' :: writtenText (column + 2) key ++ spaces column ++
      ':' :: ' ' :: text)) = ⟨column, '?' :: ' ' :: first, ending⟩ ::
        (lines ++ ⟨column, ':' :: ' ' :: first', ending'⟩ :: lines') := by
    rw [whole, asked.linesOf_append, question, colon, List.cons_append]
  refine ⟨?_, ?_, fun {rest} fuel known stops enough => ?_⟩
  · rw [whole]
    exact asked.append told
  · rw [shown]
    exact ⟨_, _, rfl, rfl, starts, rfl⟩
  · have mark : Line.IsSolid ⟨column, ':' :: ' ' :: first', ending'⟩ := ⟨':', _, rfl, rfl, by decide⟩
    have keyStops : Stops column (⟨column, ':' :: ' ' :: first', ending'⟩ :: (lines' ++ rest)) := by
      rintro line ⟨⟩
      exact ⟨Nat.le_refl column, mark⟩
    have keyed := explicitKey_writtenText key keyStops
    have bounds : Line.bounds ⟨column, '?' :: ' ' :: first, ending⟩ = false := starts.bounds
    have solid : Line.IsSolid ⟨column, '?' :: ' ' :: first, ending⟩ := starts.isSolid
    simp only [List.length_append, List.length_cons] at enough
    have value := entryValue_of_beside h stops.1 fuel (by omega)
    rw [← besideQuestion, List.cons_append] at keyed
    rw [← besideColon, List.cons_append] at value
    rw [shown, List.cons_append, List.append_assoc, List.cons_append, blockEntries, skipLines_of_isSolid solid]
    simp [bounds, opensWithMark, atGap, isGap, keyed, skipLines_of_isSolid mark, value]

def entryText (column : Nat) (key : String) (value : ConfigTree) : List Char :=
  if isSimpleKey key then writtenKey key ++ ':' :: afterKey column value
  else '?' :: ' ' :: writtenText (column + 2) key ++ spaces column ++ ':' :: ' ' :: besideMark (column + 2) value

theorem length_entryText_pos (column : Nat) (key : String) (value : ConfigTree) :
    0 < (entryText column key value).length := by
  rw [entryText]
  split <;> exact List.length_pos_iff.2 (by simp)

theorem writtenEntries_cons (column : Nat) (entry : String × ConfigTree) (entries : Dict ConfigTree) :
    writtenEntries column (entry :: entries) =
      spaces column ++ entryText column entry.1 entry.2 ++ writtenEntries column entries := by
  rw [writtenEntries, entryText]

structure ReadsValue (column : Nat) (value : ConfigTree) : Prop where
  beside : ReadsBeside column (besideMark (column + 2) value) value
  after : ReadsAfter column (afterKey column value) value

theorem readsEntry {value : ConfigTree} (h : ReadsValue column value) (key : String) :
    ReadsEntry column (entryText column key value) key value := by
  rw [entryText]
  split
  · next simple => exact readsEntry_simple simple h.after
  · exact readsEntry_explicit key h.beside

/-- The lines go on before a column. -/
def StopsBefore (column : Nat) (lines : List Line) : Prop :=
  ∀ line ∈ lines.head?, line.indent < column ∧ line.IsSolid

theorem StopsBefore.stops {lines : List Line} (h : StopsBefore column lines) : Stops column lines :=
  fun line mem => ⟨Nat.le_of_lt (h line mem).1, (h line mem).2⟩

theorem Stops.before {lines : List Line} (h : Stops column lines) {more : Nat} (lt : column < more) :
    StopsBefore more lines := fun line mem => ⟨Nat.lt_of_le_of_lt (h line mem).1 lt, (h line mem).2⟩

variable {entries : Dict ConfigTree}

theorem written_writtenEntries (filled : entries ≠ []) (all : ∀ entry ∈ entries, ReadsValue column entry.2) :
    Written (writtenEntries column entries) := by
  induction entries with
  | nil => exact absurd rfl filled
  | cons entry entries ih =>
    obtain ⟨here, later⟩ := List.forall_mem_cons.1 all
    have first := (readsEntry here entry.1).written
    rw [writtenEntries_cons]
    by_cases last : entries = []
    · rw [last, writtenEntries, List.append_nil]
      exact first
    · exact first.append (ih last later)

theorem exists_linesOf_entries (filled : entries ≠ []) (all : ∀ entry ∈ entries, ReadsValue column entry.2) :
    ∃ line lines, linesOf (writtenEntries column entries) = line :: lines ∧ line.indent = column ∧
      StartsEntry line.text ∧ (opensWithMark '?' line.text || (keyValue? line.text).isSome) = true := by
  cases entries with
  | nil => exact absurd rfl filled
  | cons entry entries =>
    have here := readsEntry (all entry (by simp)) entry.1
    obtain ⟨line, lines, written, facts⟩ := here.first
    refine ⟨line, lines ++ linesOf (writtenEntries column entries), ?_, facts⟩
    rw [writtenEntries_cons, here.written.linesOf_append, written, List.cons_append]

theorem stopsItems_writtenEntries {rest : List Line} (stops : StopsBefore column rest)
    (all : ∀ entry ∈ entries, ReadsValue column entry.2) :
    StopsItems column (linesOf (writtenEntries column entries) ++ rest) := by
  by_cases filled : entries = []
  · subst filled
    refine ⟨stops.stops, fun line mem same => ?_⟩
    have before := (stops line mem).1
    omega
  · obtain ⟨line, lines, written, indent, starts, -⟩ := exists_linesOf_entries filled all
    rw [written]
    refine ⟨?_, ?_⟩
    · rintro line ⟨⟩
      exact ⟨Nat.le_of_eq indent, starts.isSolid⟩
    · rintro line ⟨⟩ -
      exact starts.noItem

/-- By induction on the entries, each of which stops at the next and is put after those that are known. -/
theorem blockEntries_writtenEntries (all : ∀ entry ∈ entries, ReadsValue column entry.2) {rest : List Line}
    (stops : StopsBefore column rest) (known : Dict ConfigTree) (apart : (Dict.keys (known ++ entries)).Nodup)
    (fuel : Nat) (enough : 2 * ((writtenEntries column entries).length - column) + 1 ≤ fuel) :
    blockEntries fuel column known (linesOf (writtenEntries column entries) ++ rest) =
      some (known ++ entries, rest) := by
  induction entries generalizing known fuel with
  | nil =>
    obtain ⟨more, rfl⟩ := Nat.exists_eq_add_of_le (show 1 ≤ fuel by omega)
    change blockEntries (1 + more) column known rest = _
    rw [Nat.add_comm, blockEntries, stops.stops.skipLines, List.append_nil]
    cases rest with
    | nil => rfl
    | cons line lines =>
      have before := (stops line rfl).1
      have other : line.indent ≠ column := by omega
      simp [other]
  | cons entry entries ih =>
    obtain ⟨here, later⟩ := List.forall_mem_cons.1 all
    have reads := readsEntry here entry.1
    have length := congrArg List.length (writtenEntries_cons column entry entries)
    simp only [List.length_append, spaces, List.length_replicate] at length
    obtain ⟨more, rfl⟩ := Nat.exists_eq_add_of_le (show 1 ≤ fuel by omega)
    have fresh : entry.1 ∉ known.keys := by
      rw [Dict.keys, List.map_append, List.nodup_append] at apart
      exact fun there => apart.2.2 entry.1 there entry.1 (by simp) rfl
    have pos := length_entryText_pos column entry.1 entry.2
    rw [writtenEntries_cons, reads.written.linesOf_append, List.append_assoc, Nat.add_comm 1,
      reads.read more known (stopsItems_writtenEntries stops later) (by omega), Dict.put_of_notMem fresh,
      ih later (known ++ [entry]) (by simpa using apart) more (by omega)]
    simp

end Entries

end SettingsSweep.Yaml

import SettingsSweep.Proofs.Yaml.Collections

/-!
A dictionary that is written is read back. Every tree is read where it is written, by induction on what can be written;
the document is a dictionary at the first column.
-/

set_option autoImplicit false

namespace SettingsSweep.Yaml

variable {column : Nat}

theorem ReadsInline.value {text : List Char} {value : ConfigTree} (h : ReadsInline column text value)
    (beside : besideMark (column + 2) value = text) (after : afterKey column value = ' ' :: text) :
    ReadsValue column value := by
  refine ⟨?_, ?_⟩
  · rw [beside]
    exact h.beside
  · rw [after]
    exact h.after

theorem readsAfter_lines {text : List Char} {value : ConfigTree} (written : Written text)
    (read : ∀ {rest : List Line} (fuel : Nat), StopsItems column rest → 2 * text.length + 4 ≤ fuel →
      entryValue fuel column (linesOf text ++ rest) = some (value, rest)) :
    ReadsAfter column ('\n' :: text) value := by
  refine ⟨written.cons rfl, [], '\n', text, rfl, by decide, .inl rfl, rfl,
    fun fuel stops enough => ?_⟩
  have ends : endsLine (skipGap []) = true := rfl
  rw [List.length_cons] at enough
  rw [if_pos ends]
  exact read fuel stops (by omega)

section Items

variable {item : ConfigTree} {items : List ConfigTree}

theorem besideMark_list (column : Nat) (item : ConfigTree) (items : List ConfigTree) :
    besideMark column (.list (item :: items)) =
      '-' :: ' ' :: besideMark (column + 2) item ++ writtenItems column items := by
  rw [besideMark, writtenItems_cons, List.append_assoc]
  exact List.drop_left' (by simp [spaces])

theorem spaces_besideMark_list (column : Nat) (item : ConfigTree) (items : List ConfigTree) :
    spaces column ++ besideMark column (.list (item :: items)) = writtenItems column (item :: items) := by
  rw [besideMark_list, writtenItems_cons, List.append_assoc]

theorem readsBeside_list
    (all : ∀ i ∈ item :: items, ReadsBeside (column + 2) (besideMark (column + 2 + 2) i) i) :
    ReadsBeside column (besideMark (column + 2) (.list (item :: items))) (.list (item :: items)) := by
  have whole := spaces_besideMark_list (column + 2) item items
  have written := written_writtenItems (List.cons_ne_nil item items) all
  obtain ⟨first, ending, lines, shown, -⟩ := exists_linesOf_items (all item (by simp)) items
  have solid := isSolid_item (column + 2) first ending
  have bounds : Line.bounds ⟨column + 2, '-' :: ' ' :: first, ending⟩ = false :=
    Line.bounds_of_indent (Nat.succ_pos _)
  have length := congrArg List.length whole
  simp only [List.length_append, spaces, List.length_replicate] at length
  refine ⟨?_, ?_, fun {rest} fuel stops enough => ?_⟩
  · rw [← whole] at written
    exact written.of_append (by simp [besideMark_list])
  · rw [whole, shown]
    exact ⟨_, _, rfl, rfl, solid⟩
  · obtain ⟨more, rfl⟩ := Nat.exists_eq_add_of_le (show 1 ≤ fuel by omega)
    have stops : StopsItems (column + 2) rest := by
      refine ⟨stops.mono (by omega), fun line mem same => ?_⟩
      have before := (stops line mem).1
      omega
    have read := blockItems_writtenItems all stops more (by omega)
    rw [whole]
    rw [shown, List.cons_append, List.append_assoc] at read ⊢
    rw [Nat.add_comm 1, blockValue, skipLines_of_isSolid solid]
    simp [bounds, opensWithMark, atGap, isGap, read]

theorem readsAfter_list (all : ∀ i ∈ item :: items, ReadsBeside column (besideMark (column + 2) i) i) :
    ReadsAfter column (afterKey column (.list (item :: items))) (.list (item :: items)) := by
  have written := written_writtenItems (List.cons_ne_nil item items) all
  obtain ⟨first, ending, lines, shown, -⟩ := exists_linesOf_items (all item (by simp)) items
  have solid := isSolid_item column first ending
  rw [afterKey]
  refine readsAfter_lines written fun fuel stops enough => ?_
  obtain ⟨more, rfl⟩ := Nat.exists_eq_add_of_le (show 1 ≤ fuel by omega)
  have read := blockItems_writtenItems all stops more (by omega)
  rw [shown, List.cons_append, List.append_assoc] at read ⊢
  rw [Nat.add_comm 1, entryValue, skipLines_of_isSolid solid]
  simp [opensWithMark, atGap, isGap, read]

end Items

section Entries

variable {entry : String × ConfigTree} {entries : Dict ConfigTree}

theorem besideMark_dict (column : Nat) (entry : String × ConfigTree) (entries : Dict ConfigTree) :
    besideMark column (.dict (entry :: entries)) =
      entryText column entry.1 entry.2 ++ writtenEntries column entries := by
  rw [besideMark, writtenEntries_cons, List.append_assoc]
  exact List.drop_left' (by simp [spaces])

theorem spaces_besideMark_dict (column : Nat) (entry : String × ConfigTree) (entries : Dict ConfigTree) :
    spaces column ++ besideMark column (.dict (entry :: entries)) = writtenEntries column (entry :: entries) := by
  rw [besideMark_dict, writtenEntries_cons, List.append_assoc]

theorem blockValue_writtenEntries (filled : entries ≠ []) (all : ∀ entry ∈ entries, ReadsValue column entry.2)
    (apart : entries.keys.Nodup) {rest : List Line} (stops : StopsBefore column rest) {least : Nat}
    (deep : least ≤ column) (fuel : Nat)
    (enough : 2 * ((writtenEntries column entries).length - column) + 2 ≤ fuel) :
    blockValue fuel least (linesOf (writtenEntries column entries) ++ rest) = some (.dict entries, rest) := by
  obtain ⟨line, lines, shown, indent, starts, keyed⟩ := exists_linesOf_entries filled all
  obtain ⟨more, rfl⟩ := Nat.exists_eq_add_of_le (show 1 ≤ fuel by omega)
  have read : blockEntries more column [] (linesOf (writtenEntries column entries) ++ rest) = some (entries, rest) :=
    blockEntries_writtenEntries all stops [] apart more (by omega)
  have shallow : ¬ line.indent < least := by omega
  have bounds := starts.bounds
  rw [shown, List.cons_append] at read ⊢
  rw [Nat.add_comm 1, blockValue, skipLines_of_isSolid starts.isSolid]
  dsimp only
  rw [keyed, indent, read]
  rw [indent] at shallow
  simp [shallow, bounds, starts.noItem]

theorem readsBeside_dict (apart : (Dict.keys (entry :: entries)).Nodup)
    (all : ∀ e ∈ entry :: entries, ReadsValue (column + 2) e.2) :
    ReadsBeside column (besideMark (column + 2) (.dict (entry :: entries))) (.dict (entry :: entries)) := by
  have whole := spaces_besideMark_dict (column + 2) entry entries
  have pos := length_entryText_pos (column + 2) entry.1 entry.2
  have written := written_writtenEntries (List.cons_ne_nil entry entries) all
  obtain ⟨line, lines, shown, indent, starts, -⟩ := exists_linesOf_entries (List.cons_ne_nil entry entries) all
  have length := congrArg List.length whole
  simp only [List.length_append, spaces, List.length_replicate] at length
  refine ⟨?_, ?_, fun {rest} fuel stops enough => ?_⟩
  · rw [← whole] at written
    refine written.of_append ?_
    rw [besideMark_dict]
    exact List.append_ne_nil_of_left_ne_nil (List.length_pos_iff.1 pos) _
  · rw [whole, shown]
    exact ⟨_, _, rfl, indent, starts.isSolid⟩
  · rw [whole]
    exact blockValue_writtenEntries (List.cons_ne_nil _ _) all apart (stops.before (by omega)) (by omega) fuel
      (by omega)

theorem readsAfter_dict (apart : (Dict.keys (entry :: entries)).Nodup)
    (all : ∀ e ∈ entry :: entries, ReadsValue (column + 2) e.2) :
    ReadsAfter column (afterKey column (.dict (entry :: entries))) (.dict (entry :: entries)) := by
  have written := written_writtenEntries (List.cons_ne_nil entry entries) all
  obtain ⟨line, lines, shown, indent, starts, -⟩ := exists_linesOf_entries (List.cons_ne_nil entry entries) all
  rw [afterKey]
  refine readsAfter_lines written fun {rest} fuel stops enough => ?_
  obtain ⟨more, rfl⟩ := Nat.exists_eq_add_of_le (show 1 ≤ fuel by omega)
  have read := blockValue_writtenEntries (List.cons_ne_nil _ _) all apart (stops.1.before (by omega))
    (show column + 1 ≤ column + 2 by omega) more (by omega)
  rw [shown, List.cons_append] at read ⊢
  have other : ¬ line.indent = column := by omega
  rw [Nat.add_comm 1, entryValue, skipLines_of_isSolid starts.isSolid]
  simp [other, read]

end Entries

/-- By induction on the tree: it is read where it is written. -/
theorem readsValue {tree : ConfigTree} (h : Writable tree) : ∀ column, ReadsValue column tree := by
  induction h with
  | null => exact fun column => (readsInline_plain column "null" (by decide)).value rfl rfl
  | bool b =>
    intro column
    cases b
    · exact (readsInline_plain column "false" (by decide)).value rfl rfl
    · exact (readsInline_plain column "true" (by decide)).value rfl rfl
  | @number spelling plain means =>
    intro column
    have read := readsInline_plain column spelling plain
    rw [means] at read
    exact read.value (by rw [besideMark]) (by rw [afterKey]; rfl)
  | text s => exact fun column => (readsInline_text column s).value (by rw [besideMark]) (by rw [afterKey])
  | @list items all ih =>
    intro column
    cases items with
    | nil => exact (readsInline_emptyList column).value (by rw [besideMark]) (by rw [afterKey]; rfl)
    | cons item items =>
      exact ⟨readsBeside_list fun i mem => (ih i mem (column + 2)).beside,
        readsAfter_list fun i mem => (ih i mem column).beside⟩
  | @dict entries apart all ih =>
    intro column
    cases entries with
    | nil => exact (readsInline_emptyDict column).value (by rw [besideMark]) (by rw [afterKey]; rfl)
    | cons entry entries =>
      exact ⟨readsBeside_dict apart fun e mem => ih e mem (column + 2),
        readsAfter_dict apart fun e mem => ih e mem (column + 2)⟩

theorem isAllowed_of_isPrintable {c : Char} (h : isPrintable c = true) : isAllowed c = true ∧ c ≠ '\ufeff' := by
  have valid := c.valid
  refine ⟨?_, ?_⟩
  · simp only [isPrintable, isAllowed, Bool.or_eq_true, Bool.and_eq_true, beq_iff_eq, decide_eq_true_eq] at h ⊢
    have number : c.toNat < 0xD800 ∨ 0xDFFF < c.toNat := by
      rcases valid with low | high
      · exact .inl low
      · exact .inr high.1
    omega
  · rintro rfl
    revert h
    decide

theorem contents?_of_startsEntry {line : Line} (starts : StartsEntry line.text) (lines : List Line) :
    contents? (line :: lines) = some (line :: lines, false) := by
  obtain ⟨c, rest, shown, -, -, percent⟩ := starts.solid
  have noDirective : line.text.head? ≠ some '%' := by
    rw [shown]
    rintro ⟨⟩
    exact percent rfl
  rw [contents?, skipLines_of_isSolid starts.isSolid]
  simp [noDirective, Line.isMarker_eq_false starts.noStart]

theorem isOver_of_startsEntry {line : Line} (starts : StartsEntry line.text) (lines : List Line) :
    isOver (line :: lines) = false := by
  rw [isOver, skipLines_of_isSolid starts.isSolid]
  simp [Line.isMarker_eq_false starts.noEnd]

theorem ofText?_of_blockValue {chars : List Char} (allowed : ∀ c ∈ chars, isAllowed c = true ∧ c ≠ '\ufeff')
    {lines : List Line} (contents : contents? (linesOf chars) = some (lines, false)) (goesOn : isOver lines = false)
    {entries : Dict ConfigTree}
    (read : blockValue (4 * chars.length + 16) 0 lines = some (.dict entries, [])) :
    ofText? (String.ofList chars) = some entries := by
  have all : chars.all isAllowed = true := List.all_eq_true.2 fun c mem => (allowed c mem).1
  have ended : isOver [] = true := rfl
  rw [ofText?, String.toList_ofList]
  split
  · next tail => exact absurd rfl (allowed '\ufeff' (by simp)).2
  · simp [all, contents, goesOn, read, ended]

/-- What is written as a document is read as the same dictionary. -/
theorem ofText?_toText {entries : Dict ConfigTree} (h : Writable (.dict entries)) :
    ofText? (toText entries) = some entries := by
  cases h with
  | dict apart all =>
  cases entries with
  | nil =>
    have read : blockValue 28 0 (linesOf ['\x7b', '\x7d', '\n']) = some (.dict [], []) := by
      simp [blockValue, linesOf, linesFrom]
      rfl
    have printable : Printable ['\x7b', '\x7d', '\n'] := by decide
    exact ofText?_of_blockValue (fun c mem => isAllowed_of_isPrintable (printable c mem)) rfl rfl read
  | cons entry entries =>
    have filled := List.cons_ne_nil entry entries
    have values : ∀ e ∈ entry :: entries, ReadsValue 0 e.2 := fun e mem => readsValue (all e mem) 0
    have written := written_writtenEntries filled values
    obtain ⟨line, lines, shown, -, starts, -⟩ := exists_linesOf_entries filled values
    have none : StopsBefore 0 [] := by
      rintro _ ⟨⟩
    have read := blockValue_writtenEntries filled values apart none (Nat.le_refl 0)
      (4 * (writtenEntries 0 (entry :: entries)).length + 16) (by omega)
    rw [List.append_nil, shown] at read
    refine ofText?_of_blockValue (fun c mem => isAllowed_of_isPrintable (written.printable c mem)) ?_
      (isOver_of_startsEntry starts lines) read
    rw [shown, contents?_of_startsEntry starts]

end SettingsSweep.Yaml

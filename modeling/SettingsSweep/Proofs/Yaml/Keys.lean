import SettingsSweep.Proofs.Yaml.Scalars

/-!
Keys that stand before their colon. They are short enough to be read as keys, whatever they are written as.
-/

set_option autoImplicit false

namespace SettingsSweep.Yaml

/-- How a line starts on which there is an entry of a mapping. -/
structure StartsEntry (text : List Char) : Prop where
  solid : ∃ c rest, text = c :: rest ∧ isGap c = false ∧ c ≠ '#' ∧ c ≠ '%'
  noItem : opensWithMark '-' text = false
  noStart : opensWithThree '-' text = false
  noEnd : opensWithThree '.' text = false

theorem Line.isMarker_eq_false {marker : Char} {line : Line} (h : opensWithThree marker line.text = false) :
    line.isMarker marker = false := by
  obtain ⟨indent, text, ending⟩ := line
  rcases indent with _ | indent
  · rcases text with _ | ⟨a, _ | ⟨b, _ | ⟨c, rest⟩⟩⟩
    all_goals simp_all [isMarker, opensWithThree]
  · rfl

theorem StartsEntry.bounds {line : Line} (h : StartsEntry line.text) : line.bounds = false := by
  rw [Line.bounds, Line.isMarker_eq_false h.noStart, Line.isMarker_eq_false h.noEnd]
  rfl

theorem opensWithThree_append {mark : Char} (other : mark ≠ ':') {text : List Char}
    (h : opensWithThree mark text = false) (value : List Char) :
    opensWithThree mark (text ++ ':' :: value) = false := by
  have colon : (':' == mark) = false := by simpa using Ne.symm other
  rcases text with _ | ⟨a, _ | ⟨b, _ | ⟨c, rest⟩⟩⟩
  · rcases value with _ | ⟨d, _ | ⟨e, value⟩⟩ <;> simp [opensWithThree, colon]
  · rcases value with _ | ⟨d, value⟩ <;> simp [opensWithThree, colon]
  · simp [opensWithThree, colon]
  · exact h

theorem startsEntry_of_mark {mark : Char} (h : mark ∈ ['"', '\'', '?']) (rest : List Char) :
    StartsEntry (mark :: rest) := by
  simp only [List.mem_cons, List.not_mem_nil, or_false] at h
  rcases h with rfl | rfl | rfl
  all_goals
    refine ⟨⟨_, _, rfl, by decide, by decide, by decide⟩, rfl, ?_, ?_⟩ <;>
      rcases rest with _ | ⟨a, _ | ⟨b, rest⟩⟩ <;> simp [opensWithThree]

theorem startsEntry_of_fitsPlain {text : List Char} (h : FitsPlain text) (value : List Char) :
    StartsEntry (text ++ ':' :: value) := by
  have starts := startsPlain_append h.starts (':' :: value)
  obtain ⟨c, rest, shown, gap, hc⟩ := exists_of_startsPlain starts
  simp only [List.mem_cons, List.not_mem_nil, or_false, not_or] at hc
  exact ⟨⟨c, rest, shown, gap, hc.1, hc.2.2.2.2.2.2.2⟩, (opensWithMark_of_startsPlain starts).1,
    opensWithThree_append (by decide) h.noStart value, opensWithThree_append (by decide) h.noEnd value⟩

/-- A key before its colon, as it is written and read. -/
structure ReadsKey (key : String) (written : List Char) : Prop where
  printable : Printable written
  oneLine : OneLine written
  starts : ∀ value, StartsEntry (written ++ ':' :: value)
  noMark : ∀ value, opensWithMark '?' (written ++ ':' :: value) = false
  read : ∀ value, atGap value = true → keyValue? (written ++ ':' :: value) = some (key, value)

theorem readsKey_doubleQuoted {text : List Char} (short : (String.ofList text).utf8ByteSize ≤ 128) :
    ReadsKey (String.ofList text) (doubleQuoted text) := by
  have bound := length_doubleQuoted_le text
  refine ⟨.cons rfl (Printable.append (fun d mem => (shown_withEscapes text d mem).1) (by decide)),
    oneLine_doubleQuoted text, fun value => startsEntry_of_mark (by decide) _, fun value => rfl, fun value gap => ?_⟩
  exact keyValue?_doubleQuoted gap (by rw [maxKey]; omega)

theorem readsKey_singleQuoted {text : List Char} (printable : Printable text) (plain : OneLine text)
    (short : (String.ofList text).utf8ByteSize ≤ 128) : ReadsKey (String.ofList text) (singleQuoted 0 text) := by
  have bound := length_singleQuoted_le plain
  have line : OneLine (singleQuoted 0 text) := by
    rw [singleQuoted_of_oneLine plain]
    exact .cons rfl (plain.quoteDoubled.append (by decide))
  refine ⟨.cons rfl (printable_singleFrom printable 0 false), line,
    fun value => startsEntry_of_mark (by decide) _, fun value => rfl, fun value gap => ?_⟩
  exact keyValue?_singleQuoted plain gap (by rw [maxKey]; omega)

theorem readsKey_of_fitsPlain {text : List Char} (fits : FitsPlain text)
    (short : (String.ofList text).utf8ByteSize ≤ 128) : ReadsKey (String.ofList text) text := by
  have bound := length_le_utf8ByteSize text
  refine ⟨fits.printable, fits.oneLine, startsEntry_of_fitsPlain fits, fun value => ?_, fun value gap => ?_⟩
  · exact (opensWithMark_of_startsPlain (startsPlain_append fits.starts _)).2
  · exact keyValue?_of_fitsPlain fits gap (by rw [maxKey]; omega)

theorem readsKey_writtenKey {key : String} (simple : isSimpleKey key = true) : ReadsKey key (writtenKey key) := by
  simp only [isSimpleKey, Bool.and_eq_true, decide_eq_true_eq, Bool.not_eq_true', List.any_eq_false] at simple
  obtain ⟨short, plain⟩ := simple
  have same : String.ofList key.toList = key := String.ofList_toList
  rw [← same] at short
  have plain : OneLine key.toList := fun c mem => by simpa using plain c mem
  rw [writtenKey]
  rcases style_cases key with ⟨style, -, fits⟩ | ⟨style, fits⟩ | style | ⟨style, -, -⟩
  all_goals rw [style]
  · have read := readsKey_of_fitsPlain fits short
    rwa [same] at read
  · have read := readsKey_singleQuoted fits.printable plain short
    rwa [same] at read
  · have read := readsKey_doubleQuoted short
    rwa [same] at read
  · have read := readsKey_doubleQuoted short
    rwa [same] at read

end SettingsSweep.Yaml

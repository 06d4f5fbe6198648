import SettingsSweep.Document.Base
import SettingsSweep.Proofs.Axis.RangeText
import SettingsSweep.Proofs.Json.Reader

/-!
Comments in a base document. The tokens of a text are those of its lines, a line that starts like a comment has a
token that no reader accepts, and an empty line has none; so the comments between the lines of a JSON object
change nothing.
-/

set_option autoImplicit false

namespace SettingsSweep

namespace Text

theorem joinWith_concat (sep : Char) (pieces : List (List Char)) (last : List Char) :
    joinWith sep (pieces ++ [last]) = pieces.flatMap (· ++ [sep]) ++ last := by
  induction pieces with
  | nil => rfl
  | cons piece pieces ih =>
    rw [List.cons_append, joinWith_cons sep piece (by simp), ih]
    simp

theorem dropReturn_cases (line : List Char) :
    dropReturn line = line ∨ line = dropReturn line ++ ['\r'] := by
  unfold dropReturn
  split
  · next h =>
    right
    rw [List.dropLast_append_getLast?]
    exact h
  · exact .inl rfl

theorem mem_of_mem_dropReturn {c : Char} {line : List Char} (h : c ∈ dropReturn line) : c ∈ line := by
  unfold dropReturn at h
  split at h
  · exact List.mem_of_mem_dropLast h
  · exact h

theorem exists_ended (text : List Char) : ∃ ended last, splitOn '\n' text = ended ++ [last] ∧
    lines text = ended.map dropReturn ++ if last = [] then [] else [last] := by
  have pieces := List.dropLast_concat_getLast (splitOn_ne_nil '\n' text)
  refine ⟨_, _, pieces.symm, ?_⟩
  unfold lines
  dsimp only
  rw [List.getLastD_eq_getLast?, List.getLast?_eq_some_getLast (splitOn_ne_nil '\n' text)]
  rfl

/-- White space, then a mark, then anything. -/
def CommentLine (line : List Char) : Prop :=
  ∃ blank mark body, blank.all isBlank = true ∧ (mark = ['/', '/'] ∨ mark = ['#']) ∧
    line = blank ++ mark ++ body

theorem isComment_iff (line : List Char) : isComment line = true ↔ CommentLine line := by
  have slashes : opensWith ['/', '/'] line = true ↔ _ := opensWith_iff (by rintro _ ⟨⟩; rfl) line
  have hash : opensWith ['#'] line = true ↔ _ := opensWith_iff (by rintro _ ⟨⟩; rfl) line
  rw [isComment, Bool.or_eq_true, slashes, hash]
  constructor
  · rintro (⟨blank, body, hb, h⟩ | ⟨blank, body, hb, h⟩)
    · exact ⟨blank, _, body, hb, .inl rfl, h⟩
    · exact ⟨blank, _, body, hb, .inr rfl, h⟩
  · rintro ⟨blank, mark, body, hb, rfl | rfl, h⟩
    · exact .inl ⟨blank, body, hb, h⟩
    · exact .inr ⟨blank, body, hb, h⟩

instance : DecidablePred CommentLine := fun line => decidable_of_iff _ (isComment_iff line)

/-- The second lines are the first with comments among them. Which of the lines ended with a carriage return
    makes no difference. -/
inductive Commented : List (List Char) → List (List Char) → Prop
  | nil : Commented [] []
  | keep {line line' : List Char} {lines lines' : List (List Char)}
      (same : dropReturn line = dropReturn line') (rest : Commented lines lines') :
      Commented (line :: lines) (line' :: lines')
  | comment {line : List Char} {lines lines' : List (List Char)}
      (isComment : CommentLine line) (rest : Commented lines lines') :
      Commented lines (line :: lines')

theorem Commented.refl : ∀ lines, Commented lines lines
  | [] => .nil
  | _ :: lines => .keep rfl (refl lines)

end Text

namespace Json.Lexeme

open Text

theorem tokens?_cons_space {c : Char} (hc : isSpace c = true) (cs : List Char) :
    tokens? (c :: cs) = tokens? cs :=
  tokens?_congr (List.dropWhile_cons_of_pos hc)

/-- White space that JSON does not know is a stray, and so is what a comment starts with. -/
theorem tokenAt_stray {c : Char} (h : isBlank c = true ∨ c = '/' ∨ c = '#') (cs : List Char) :
    tokenAt c cs = (.stray, []) := by
  have ne {e : Char} (he : isBlank e = false ∧ e ≠ '/' ∧ e ≠ '#') : c ≠ e := by
    rintro rfl
    rcases h with h | h | h
    · exact absurd h (by simp [he.1])
    · exact he.2.1 h
    · exact he.2.2 h
  have digit : ¬ c.isDigit = true := by
    intro hd
    rcases h with h | rfl | rfl
    · rw [isBlank_of_isDigit hd] at h
      cases h
    · cases hd
    · cases hd
  unfold tokenAt
  iterate 11 rw [if_neg (ne (by decide))]
  exact if_neg digit

theorem tokens?_cons_stray {c : Char} (space : isSpace c = false)
    (h : isBlank c = true ∨ c = '/' ∨ c = '#') (cs : List Char) : tokens? (c :: cs) = none := by
  rw [tokens?_eq, List.dropWhile_cons_of_neg (by simp [space])]
  dsimp only
  rw [tokenAt_stray h]
  rfl

theorem tokens?_of_isComment {line : List Char} (h : isComment line = true) :
    tokens? line = none := by
  induction line with
  | nil => cases h
  | cons c cs ih =>
    by_cases blank : isBlank c = true
    · by_cases space : isSpace c = true
      · rw [tokens?_cons_space space]
        apply ih
        rw [← h, isComment, isComment, opensWith, opensWith, opensWith, opensWith, skipBlank,
          skipBlank, List.dropWhile_cons_of_pos blank]
      · exact tokens?_cons_stray (by simpa using space) (.inl blank) cs
    · have start : c = '/' ∨ c = '#' := by
        simp only [isComment, opensWith, skipBlank, List.dropWhile_cons_of_neg blank, List.isPrefixOf,
          Bool.or_eq_true, Bool.and_eq_true, beq_iff_eq] at h
        rcases h with h | h
        · exact .inl h.1.symm
        · exact .inr h.1.symm
      have space : isSpace c = false := by
        rcases start with rfl | rfl <;> rfl
      exact tokens?_cons_stray space (.inr start) cs

theorem eq_nil_of_tokens?_of_blank {text : List Char} {ts : List Token}
    (blank : text.all isBlank = true) (h : tokens? text = some ts) : ts = [] := by
  induction text with
  | nil =>
    rw [tokens?_eq] at h
    exact (Option.some.inj h).symm
  | cons c cs ih =>
    rw [List.all_cons, Bool.and_eq_true] at blank
    by_cases space : isSpace c = true
    · rw [tokens?_cons_space space] at h
      exact ih blank.2 h
    · rw [tokens?_cons_stray (by simpa using space) (.inl blank.1)] at h
      cases h

def lineTokens? : List (List Char) → Option (List Token)
  | [] => some []
  | line :: rest => (tokens? line).bind fun ts => (lineTokens? rest).map (ts ++ ·)

theorem tokens?_nil : tokens? [] = some [] := by
  rw [tokens?_eq]
  rfl

theorem lineTokens?_singleton (line : List Char) : lineTokens? [line] = tokens? line := by
  cases h : tokens? line <;> simp [lineTokens?, h]

theorem tokens?_dropReturn (line : List Char) : tokens? (dropReturn line) = tokens? line := by
  rcases dropReturn_cases line with h | h
  · rw [h]
  · rw [h, tokens?_append (.inr rfl), tokens?_nil, ← h]
    cases tokens? (dropReturn line) <;> simp

theorem lineTokens?_append (lines more : List (List Char)) :
    lineTokens? (lines ++ more) =
      (lineTokens? lines).bind fun ts => (lineTokens? more).map (ts ++ ·) := by
  induction lines with
  | nil => simp [lineTokens?]
  | cons line lines ih =>
    rw [List.cons_append, lineTokens?, lineTokens?, ih, Option.bind_assoc]
    congr 1
    funext ts
    rw [Option.map_bind, Option.bind_map]
    congr 1
    funext ts'
    rw [Function.comp, Function.comp, Option.map_map]
    congr 1
    funext us
    exact (List.append_assoc ts ts' us).symm

theorem lineTokens?_map {f : List Char → List Char} (hf : ∀ line, tokens? (f line) = tokens? line)
    (lines : List (List Char)) : lineTokens? (lines.map f) = lineTokens? lines := by
  induction lines with
  | nil => rfl
  | cons line lines ih => rw [List.map_cons, lineTokens?, lineTokens?, hf, ih]

theorem tokens?_joinWith (lines : List (List Char)) :
    tokens? (joinWith '\n' lines) = lineTokens? lines := by
  induction lines with
  | nil => exact tokens?_nil
  | cons line lines ih =>
    cases lines with
    | nil => exact (lineTokens?_singleton line).symm
    | cons next lines =>
      rw [joinWith_cons _ _ (by simp), tokens?_append (.inl rfl), ih]
      rfl

theorem lineTokens?_lines (text : List Char) : lineTokens? (lines text) = tokens? text := by
  obtain ⟨ended, last, pieces, eq⟩ := exists_ended text
  have rest : lineTokens? (if last = [] then [] else [last]) = lineTokens? [last] := by
    split
    · next none => rw [none, lineTokens?_singleton, tokens?_nil, lineTokens?]
    · rfl
  rw [eq, lineTokens?_append, lineTokens?_map tokens?_dropReturn, rest, ← lineTokens?_append, ← pieces,
    ← tokens?_joinWith, joinWith_splitOn]

theorem lineTokens?_cons_eq_some {line : List Char} {lines : List (List Char)} {ts : List Token}
    (h : lineTokens? (line :: lines) = some ts) : ∃ first rest, tokens? line = some first ∧
      lineTokens? lines = some rest ∧ ts = first ++ rest := by
  obtain ⟨first, read, h⟩ := Option.bind_eq_some_iff.1 h
  obtain ⟨rest, readRest, rfl⟩ := Option.map_eq_some_iff.1 h
  exact ⟨first, rest, read, readRest, rfl⟩

/-- Lines that can be read are no comments, so only what was inserted is cleared. -/
theorem lineTokens?_commented {lines lines' : List (List Char)} (h : Commented lines lines')
    {ts : List Token} (read : lineTokens? lines = some ts) :
    lineTokens? (lines'.map fun line => if isComment line then [] else line) = some ts := by
  induction h generalizing ts with
  | nil => exact read
  | @keep line line' _ _ same _ ih =>
    obtain ⟨first, rest, readLine, readRest, rfl⟩ := lineTokens?_cons_eq_some read
    have readLine' : tokens? line' = some first := by
      rw [← tokens?_dropReturn line', ← same, tokens?_dropReturn, readLine]
    have plain : ¬ isComment line' = true := by
      intro is
      rw [tokens?_of_isComment is] at readLine'
      cases readLine'
    rw [List.map_cons, if_neg plain, lineTokens?, readLine', ih readRest]
    rfl
  | comment is _ ih =>
    rw [List.map_cons, if_pos ((isComment_iff _).2 is), lineTokens?, tokens?_nil, ih read]
    rfl

end Json.Lexeme

theorem Document.ofText_of_tokens? {text : String} {cleaned : List Char} {ts : List Json.Token}
    {members : Document} (clean : Text.stripCommentsChars text.toList = cleaned)
    (read : Json.Lexeme.tokens? cleaned = some ts)
    (spell : Json.valueOf? (.value []) ts = some (.obj members)) :
    Document.ofText text = .ok members := by
  have value : Json.ofText cleaned = .ok (.obj members) := by
    rw [Json.ofText_eq_ok_iff, read]
    exact spell
  have content : ¬ cleaned.all Text.isBlank = true := by
    intro blank
    obtain rfl := Json.Lexeme.eq_nil_of_tokens?_of_blank blank read
    cases spell
  rw [Document.ofText, clean, if_neg content, value]

theorem Document.ofText_of_commented {text commented : String} {members : Document}
    (accepted : Json.ofText text.toList = .ok (.obj members))
    (inserted : Text.Commented (Text.lines text.toList) (Text.lines commented.toList)) :
    Document.ofText commented = .ok members := by
  rw [Json.ofText_eq_ok_iff] at accepted
  obtain ⟨ts, read, spell⟩ := Option.bind_eq_some_iff.1 accepted
  rw [← Json.Lexeme.lineTokens?_lines] at read
  refine Document.ofText_of_tokens? rfl ?_ spell
  rw [Text.stripCommentsChars, Json.Lexeme.tokens?_joinWith]
  exact Json.Lexeme.lineTokens?_commented inserted read

/-- Comments between the lines of a JSON object change nothing that is read, and removing them from any text
    leaves every other line as it is, at its place. -/
theorem Document.comments_transparent :
    (∀ (text commented : String) (members : Document),
      Json.ofText text.toList = .ok (.obj members) →
      Text.Commented (Text.lines text.toList) (Text.lines commented.toList) →
      Document.ofText commented = .ok members) ∧
    (∀ text : List Char, ∃ (ended : List (List Char)) (last : List Char) (lines : List (List Char)),
      text = ended.flatMap (· ++ ['\n']) ++ last ∧ (∀ line ∈ ended ++ [last], '\n' ∉ line) ∧
      lines = (ended.map Text.dropReturn ++ if last = [] then [] else [last]).map
        (fun line => if Text.CommentLine line then [] else line) ∧
      Text.stripCommentsChars text = Text.joinWith '\n' lines ∧ ∀ line ∈ lines, '\n' ∉ line) := by
  constructor
  · exact fun _ _ _ => Document.ofText_of_commented
  · intro text
    obtain ⟨ended, last, pieces, eq⟩ := Text.exists_ended text
    have unbroken : ∀ line ∈ ended ++ [last], '\n' ∉ line := by
      intro line hl
      exact Text.not_mem_of_mem_splitOn (pieces ▸ hl)
    refine ⟨ended, last, _, ?_, unbroken, rfl, ?_, ?_⟩
    · rw [← Text.joinWith_concat, ← pieces, Text.joinWith_splitOn]
    · rw [Text.stripCommentsChars, eq]
      simp only [Text.isComment_iff]
    · intro line hl
      obtain ⟨whole, hw, rfl⟩ := List.mem_map.1 hl
      split
      · exact List.not_mem_nil
      · rcases List.mem_append.1 hw with hw | hw
        · obtain ⟨line, inside, rfl⟩ := List.mem_map.1 hw
          exact fun h => unbroken line (List.mem_append_left _ inside) (Text.mem_of_mem_dropReturn h)
        · split at hw
          · exact absurd hw List.not_mem_nil
          · exact unbroken whole (List.mem_append_right _ hw)

/-- The marks of a comment within strings, and lines that end with a carriage return. -/
theorem Document.comments_transparent_url :
    Document.ofText "# base\n\x7b\r\n\t// a link\n\"url\": \"http://a#b\",\n  # last\r\n\"n\": -2\x7d" =
      .ok [("url", .str "http://a#b"), ("n", .int (-2))] := by
  have kept : Text.lines "\x7b\r\n\"url\": \"http://a#b\",\n\"n\": -2\x7d".toList =
      ["\x7b".toList, "\"url\": \"http://a#b\",".toList, "\"n\": -2\x7d".toList] := rfl
  have all : Text.lines
      "# base\n\x7b\r\n\t// a link\n\"url\": \"http://a#b\",\n  # last\r\n\"n\": -2\x7d".toList =
      ["# base".toList, "\x7b".toList, "\t// a link".toList, "\"url\": \"http://a#b\",".toList,
        "  # last".toList, "\"n\": -2\x7d".toList] := rfl
  refine Document.comments_transparent.1 "\x7b\r\n\"url\": \"http://a#b\",\n\"n\": -2\x7d" _ _ rfl ?_
  rw [kept, all]
  refine .comment ⟨[], ['#'], " base".toList, rfl, .inr rfl, rfl⟩ (.keep rfl ?_)
  refine .comment ⟨['\t'], ['/', '/'], " a link".toList, rfl, .inl rfl, rfl⟩ (.keep rfl ?_)
  exact .comment ⟨[' ', ' '], ['#'], " last".toList, rfl, .inr rfl, rfl⟩ (.keep rfl .nil)

end SettingsSweep

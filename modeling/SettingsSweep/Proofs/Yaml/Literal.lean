import SettingsSweep.Proofs.Yaml.Quoted
import Mathlib.Data.List.TakeWhile

/-!
Literal blocks. The lines of a block are those of its text, each deeper; with the breaks at its end told by the mark
after its bar, they are read as that text.
-/

set_option autoImplicit false

namespace SettingsSweep.Yaml

theorem anyPair_concat {p : Char → Char → Bool} {text : List Char} {c : Char} (h : anyPair p text = false)
    (last : ∀ d ∈ text.getLast?, p d c = false) : anyPair p (text ++ [c]) = false := by
  induction text with
  | nil => rfl
  | cons a text ih =>
    cases text with
    | nil => simpa [anyPair] using last a rfl
    | cons b text =>
      rw [anyPair, Bool.or_eq_false_iff] at h
      rw [List.cons_append, List.cons_append, anyPair, h.1, Bool.false_or]
      exact ih h.2 fun d mem => last d (by simpa using mem)

/-! ### Lines that are indented -/

/-- A line that is indented unless it is empty. -/
def Line.deeper (indent : Nat) (line : Line) : Line :=
  if line.text = [] then line else { line with indent := line.indent + indent }

theorem Line.beyond_of (chars ending : List Char) : (Line.of chars ending).beyond 0 = chars := by
  rw [beyond, Nat.sub_zero, of]
  have skipped := List.takeWhile_append_dropWhile (p := (· = ' ')) (l := chars)
  have blanks : chars.takeWhile (· = ' ') = List.replicate (chars.takeWhile (· = ' ')).length ' ' :=
    List.eq_replicate_of_mem fun c mem => by simpa using List.mem_takeWhile_imp mem
  have length : chars.length - (chars.dropWhile (· = ' ')).length = (chars.takeWhile (· = ' ')).length := by
    rw [← congrArg List.length skipped, List.length_append]
    omega
  rw [length, ← blanks, skipped]

theorem Line.of_spaces_append {first : List Char} (filled : (Line.of first []).text ≠ []) (indent : Nat)
    (ending : List Char) : Line.of (spaces indent ++ first) ending = (Line.of first ending).deeper indent := by
  have skipped : (spaces indent ++ first).dropWhile (· = ' ') = first.dropWhile (· = ' ') :=
    List.dropWhile_append_of_pos (by simp [spaces])
  have shorter := (List.dropWhile_sublist (· = ' ') (l := first)).length_le
  have filled : first.dropWhile (· = ' ') ≠ [] := filled
  rw [deeper, of, of, skipped, if_neg filled]
  simp [spaces]
  omega

theorem literalFrom_append {first : List Char} (plain : OneLine first) (indent : Nat) (rest : List Char) :
    literalFrom indent false (first ++ rest) = first ++ literalFrom indent false rest := by
  induction first with
  | nil => rfl
  | cons c first ih =>
    obtain ⟨hc, plain⟩ := List.forall_mem_cons.1 plain
    rw [List.cons_append, literalFrom, ih plain]
    simp [hc]

theorem literalFrom_line {first : List Char} (plain : OneLine first) {b : Char} (hb : isBreak b = true)
    (indent : Nat) (tail : List Char) : literalFrom indent true (first ++ b :: tail) =
      (if first = [] then [] else spaces indent ++ first) ++ b :: literalFrom indent true tail := by
  cases first with
  | nil => rw [List.nil_append, literalFrom, if_pos hb, if_pos rfl, List.nil_append]
  | cons c first =>
    obtain ⟨hc, plain⟩ := List.forall_mem_cons.1 plain
    have broken : literalFrom indent false (b :: tail) = b :: literalFrom indent true tail := by
      rw [literalFrom, if_pos hb]
    rw [List.cons_append, literalFrom, literalFrom_append plain, broken]
    simp [hc]

theorem filled_of_noSpace {first : List Char} (last : ∀ c ∈ first.getLast?, c ≠ ' ') (some : first ≠ [])
    (ending : List Char) : (Line.of first ending).text ≠ [] := by
  intro none
  have blank : ∀ c ∈ first, c = ' ' := by
    have all := List.dropWhile_eq_nil_iff.1 none
    simpa using all
  exact last _ (List.getLast?_eq_some_getLast some) (blank _ (List.getLast_mem some))

theorem last_ne_space {first tail : List Char} {b : Char} (h : hasSpaceBreak (first ++ b :: tail) = false)
    (hb : IsEnd b) : ∀ c ∈ first.getLast?, c ≠ ' ' := by
  rintro c last rfl
  obtain ⟨body, rfl⟩ := List.getLast?_eq_some_iff.1 last
  rw [List.append_assoc, hasSpaceBreak] at h
  have pair := not_of_anyPair h
  simp [hb.isBreak] at pair

/-- By induction on the lines: those of a block are those of its text, each deeper. -/
theorem linesOf_literalFrom {text : List Char} (h : Written text) (spaceBreak : hasSpaceBreak text = false)
    (indent : Nat) : linesOf (literalFrom indent true text) = (linesOf text).map (Line.deeper indent) := by
  refine Written.lines_induction (motive := fun text => hasSpaceBreak text = false →
    linesOf (literalFrom indent true text) = (linesOf text).map (Line.deeper indent)) ?_ ?_ h spaceBreak
  · intro _
    rfl
  · intro first b tail _ plain hb ih spaceBreak
    have later : hasSpaceBreak tail = false := anyPair_tail spaceBreak
    rw [literalFrom_line plain hb.isBreak, linesOf_line plain hb, List.map_cons, ← ih later]
    by_cases empty : first = []
    · subst empty
      exact linesOf_line plain hb _
    · rw [if_neg empty, linesOf_line ((OneLine.spaces indent).append plain) hb,
        Line.of_spaces_append (filled_of_noSpace (last_ne_space spaceBreak hb) empty [])]

theorem indent_of_empty {text : List Char} (h : Written text) (spaceBreak : hasSpaceBreak text = false) :
    ∀ line ∈ linesOf text, line.text = [] → line.indent = 0 := by
  refine Written.lines_induction (motive := fun text => hasSpaceBreak text = false →
    ∀ line ∈ linesOf text, line.text = [] → line.indent = 0) ?_ ?_ h spaceBreak
  · rintro - line ⟨⟩
  · intro first b tail _ plain hb ih spaceBreak line mem none
    have later : hasSpaceBreak tail = false := anyPair_tail spaceBreak
    rw [linesOf_line plain hb] at mem
    rcases List.mem_cons.1 mem with rfl | mem
    · by_cases empty : first = []
      · rw [empty]
        rfl
      · exact absurd none (filled_of_noSpace (last_ne_space spaceBreak hb) empty [b])
    · exact ih later line mem none

def Line.piece (line : Line) : List Char × List Char := (line.beyond 0, line.ending)

theorem flatMap_pieces {text : List Char} (h : Written text) :
    ((linesOf text).map Line.piece).flatMap (fun piece => piece.1 ++ piece.2) = text := by
  refine Written.lines_induction (motive := fun text =>
    ((linesOf text).map Line.piece).flatMap (fun piece => piece.1 ++ piece.2) = text) rfl ?_ h
  intro first b tail _ plain hb ih
  rw [linesOf_line plain hb, List.map_cons, List.flatMap_cons, ih, Line.piece, Line.beyond_of]
  simp [Line.of]

theorem printable_of_mem_linesOf {text : List Char} (h : Written text) :
    ∀ line ∈ linesOf text, Printable line.text := by
  refine Written.lines_induction (motive := fun text =>
    ∀ line ∈ linesOf text, Printable line.text) ?_ ?_ h
  · rintro line ⟨⟩
  · intro first b tail h plain hb ih line mem c hc
    rw [linesOf_line plain hb] at mem
    rcases List.mem_cons.1 mem with rfl | mem
    · exact h.printable c (List.mem_append_left _ ((List.dropWhile_sublist _).subset hc))
    · exact ih line mem c hc

theorem isInside_deeper (indent : Nat) (line : Line) : (line.deeper indent).isInside indent = true := by
  rw [Line.deeper]
  split
  · next empty => simp [Line.isInside, empty]
  · simp [Line.isInside]

theorem beyond_deeper {line : Line} (clean : line.text = [] → line.indent = 0) (indent : Nat) :
    (line.deeper indent).beyond indent = line.beyond 0 := by
  rw [Line.deeper]
  split
  · next empty => simp [Line.beyond, clean empty]
  · simp [Line.beyond]

theorem ending_deeper (indent : Nat) (line : Line) : (line.deeper indent).ending = line.ending := by
  rw [Line.deeper]
  split <;> rfl

theorem text_deeper (indent : Nat) (line : Line) : (line.deeper indent).text = line.text := by
  rw [Line.deeper]
  split <;> rfl

/-! ### The block as a whole -/

/-- Without tabs before its text or after it, a block has the lines that are indented far enough. -/
theorem blockScalar?_of_untabbed {header : BlockHeader} {least indent : Nat} {lines : List Line}
    (told : header.indent.elim (detectIndent (max least 1) lines) (least - 1 + ·) = indent)
    (inside : ∀ line ∈ lines.takeWhile (·.isInside indent), line.isTabbed = false)
    (outside : ∀ line ∈ (lines.dropWhile (·.isInside indent)).head?, line.isTabbed = false) :
    blockScalar? header least lines =
      some (blockText header ((lines.takeWhile (·.isInside indent)).map
        fun line => (line.beyond indent, line.ending)), lines.dropWhile (·.isInside indent)) := by
  unfold blockScalar?
  cases given : header.indent with
  | some n =>
    rw [given] at told
    subst told
    refine if_neg ?_
    rw [Bool.or_false]
    split
    · next line rest shown => exact Bool.eq_false_iff.1 (outside line (by simp [shown]))
    · exact Bool.false_ne_true
  | none =>
    rw [given] at told
    subst told
    refine if_neg ?_
    rw [Bool.or_eq_true, not_or]
    constructor
    · split
      · next line rest shown => exact Bool.eq_false_iff.1 (outside line (by simp [shown]))
      · exact Bool.false_ne_true
    · split
      · next found => exact Bool.eq_false_iff.1 (inside _ (List.mem_of_find?_eq_some found))
      · exact Bool.false_ne_true

/-- A block that is given its indentation, or starts with a line from which it is told. -/
def TellsIndent (header : BlockHeader) (text : List Char) : Prop :=
  header.indent = some 2 ∨ header.indent = none ∧ ∃ line lines, linesOf text = line :: lines ∧
    line.indent = 0 ∧ line.text ≠ []

theorem isTabbed_deeper {line : Line} (printable : Printable line.text) (indent : Nat) :
    (line.deeper indent).isTabbed = false := by
  rw [Line.isTabbed, text_deeper]
  cases shown : line.text with
  | nil => rfl
  | cons c chars =>
    have tab : c ≠ '\t' := by
      rintro rfl
      exact absurd (printable '\t' (by simp [shown])) (by decide)
    simp [tab]

section

variable {column : Nat} {rest : List Line}

theorem Stops.isTabbed (stops : Stops column rest) : ∀ line ∈ rest.head?, line.isTabbed = false := by
  intro line mem
  obtain ⟨-, c, chars, text, gap, -⟩ := stops line mem
  have tab : c ≠ '\t' := by
    rintro rfl
    cases gap
  simp [Line.isTabbed, text, tab]

theorem Stops.isInside (stops : Stops column rest) {indent : Nat} (deep : column < indent) :
    ∀ line ∈ rest.head?, line.isInside indent = false := by
  intro line mem
  obtain ⟨before, c, chars, text, -, -⟩ := stops line mem
  simp [Line.isInside, text]
  omega

/-- The lines inside a block are those that were made deeper. -/
theorem Stops.span_deeper (stops : Stops column rest) {indent : Nat} (deep : column < indent) (lines : List Line) :
    (lines.map (Line.deeper indent) ++ rest).takeWhile (·.isInside indent) = lines.map (Line.deeper indent) ∧
      (lines.map (Line.deeper indent) ++ rest).dropWhile (·.isInside indent) = rest := by
  have all : ∀ line ∈ lines.map (Line.deeper indent), line.isInside indent = true := by
    intro line mem
    obtain ⟨line, -, rfl⟩ := List.mem_map.1 mem
    exact isInside_deeper indent line
  rw [List.takeWhile_append_of_pos all, List.dropWhile_append_of_pos all]
  cases rest with
  | nil => simp
  | cons line later =>
    have out := stops.isInside deep line rfl
    simp [out]

/-- The indentation of a block is found, whether or not it is given. -/
theorem TellsIndent.elim {header : BlockHeader} {text : List Char} (tells : TellsIndent header text) :
    header.indent.elim
      (detectIndent (max (column + 1) 1) ((linesOf text).map (Line.deeper (column + 2)) ++ rest))
      (column + 1 - 1 + ·) = column + 2 := by
  rcases tells with given | ⟨none, line, lines, first, start, filled⟩
  · rw [given]
    simp
  · rw [none, first, List.map_cons, List.cons_append, Option.elim_none, detectIndent, text_deeper,
      if_neg filled, Line.deeper, if_neg filled, start]
    simp

theorem blockScalar?_deeper (stops : Stops column rest) {text : List Char} (h : Written text)
    (spaceBreak : hasSpaceBreak text = false) {header : BlockHeader} (tells : TellsIndent header text) :
    blockScalar? header (column + 1) ((linesOf text).map (Line.deeper (column + 2)) ++ rest) =
      some (blockText header ((linesOf text).map Line.piece), rest) := by
  obtain ⟨inside, left⟩ := stops.span_deeper (show column < column + 2 by omega) (linesOf text)
  have tabs : ∀ line ∈ (linesOf text).map (Line.deeper (column + 2)), line.isTabbed = false := by
    intro line mem
    obtain ⟨line, here, rfl⟩ := List.mem_map.1 mem
    exact isTabbed_deeper (printable_of_mem_linesOf h line here) _
  have pieces : ((linesOf text).map (Line.deeper (column + 2))).map
      (fun line => (line.beyond (column + 2), line.ending)) = (linesOf text).map Line.piece := by
    rw [List.map_map]
    refine List.map_congr_left fun line mem => ?_
    rw [Function.comp_apply, beyond_deeper (indent_of_empty h spaceBreak line mem), ending_deeper]
    rfl
  rw [blockScalar?_of_untabbed tells.elim (by rwa [inside]) (by rw [left]; exact stops.isTabbed), inside, left,
    pieces]

end

/-! ### Breaks at the end -/

def joined (pieces : List (List Char × List Char)) : List Char := pieces.flatMap fun piece => piece.1 ++ piece.2

theorem literalText_append (pieces : List (List Char × List Char)) :
    literalText pieces ++ (pieces.getLast?.map Prod.snd).getD [] = joined pieces := by
  induction pieces with
  | nil => rfl
  | cons piece pieces ih =>
    obtain ⟨text, ending⟩ := piece
    cases pieces with
    | nil => simp [literalText, joined]
    | cons next pieces =>
      rw [literalText, List.getLast?_cons_cons, List.append_assoc, ih]
      · simp [joined]
      · rintro ⟨⟩

theorem flatMap_snd_of_empty {tail : List (List Char × List Char)} (empty : ∀ piece ∈ tail, piece.1 = []) :
    tail.flatMap Prod.snd = joined tail := by
  induction tail with
  | nil => rfl
  | cons piece tail ih =>
    obtain ⟨here, later⟩ := List.forall_mem_cons.1 empty
    rw [List.flatMap_cons, ih later, joined, joined, List.flatMap_cons, here, List.nil_append]

/-- The lines of a block up to the last that is not empty, and the empty lines after it. -/
theorem exists_tail (pieces : List (List Char × List Char)) : ∃ body tail, pieces = body ++ tail ∧
    (∀ piece ∈ tail, piece.1 = []) ∧ ((∀ piece ∈ pieces.getLast?, piece.1 ≠ []) → tail = []) ∧
    ∀ header : BlockHeader, header.literal = true →
      blockText header pieces = literalText body ++ chomp header.chomping body tail := by
  have split := List.takeWhile_append_dropWhile (p := fun piece : List Char × List Char => piece.1 = [])
    (l := pieces.reverse)
  have parts := congrArg List.reverse split
  rw [List.reverse_append, List.reverse_reverse] at parts
  refine ⟨(pieces.reverse.dropWhile fun piece => piece.1 = []).reverse,
    (pieces.reverse.takeWhile fun piece => piece.1 = []).reverse, parts.symm, ?_, ?_, ?_⟩
  · intro piece mem
    simpa using List.mem_takeWhile_imp (List.mem_reverse.1 mem)
  · intro filled
    rcases List.eq_nil_or_concat pieces with rfl | ⟨body, piece, rfl⟩
    · rfl
    · simpa using filled piece
  · intro header literal
    have taken : ∀ {body tail : List (List Char × List Char)}, body ++ tail = pieces →
        pieces.take (pieces.length - tail.length) = body := by
      rintro body tail rfl
      simp
    rw [blockText, taken parts, literal, if_pos rfl]

section

variable {header : BlockHeader} {pieces : List (List Char × List Char)}

theorem blockText_keep (literal : header.literal = true) (keep : header.chomping = .keep) :
    blockText header pieces = joined pieces := by
  obtain ⟨body, tail, rfl, empty, -, read⟩ := exists_tail pieces
  rw [read header literal, keep, chomp, flatMap_snd_of_empty empty, ← List.append_assoc, literalText_append]
  simp [joined]

theorem blockText_clip (literal : header.literal = true) (clip : header.chomping = .clip)
    (filled : ∀ piece ∈ pieces.getLast?, piece.1 ≠ []) : blockText header pieces = joined pieces := by
  obtain ⟨body, tail, rfl, -, none, read⟩ := exists_tail pieces
  obtain rfl := none filled
  rw [List.append_nil] at read ⊢
  rw [read header literal, clip, chomp, literalText_append]

theorem blockText_strip (literal : header.literal = true) (strip : header.chomping = .strip)
    (filled : ∀ piece ∈ pieces.getLast?, piece.1 ≠ []) :
    blockText header pieces ++ (pieces.getLast?.map Prod.snd).getD [] = joined pieces := by
  obtain ⟨body, tail, rfl, -, none, read⟩ := exists_tail pieces
  obtain rfl := none filled
  rw [List.append_nil] at read ⊢
  rw [read header literal, strip, chomp, List.append_nil, literalText_append]

end

theorem getLast?_linesOf {text : List Char} (h : Written text) : ∀ {body d b}, text = body ++ [d] ++ [b] →
    isBreak d = false → ∃ first, first ≠ [] ∧ (linesOf text).getLast? = some (Line.of first [b]) := by
  refine Written.lines_induction (motive := fun text => ∀ {body d b}, text = body ++ [d] ++ [b] →
    isBreak d = false → ∃ first, first ≠ [] ∧ (linesOf text).getLast? = some (Line.of first [b])) ?_ ?_ h
  · intro body d b same
    simp at same
  · intro first c tail _ plain hc ih body d b same hd
    rw [linesOf_line plain hc]
    rcases List.eq_nil_or_concat tail with rfl | ⟨before, last, rfl⟩
    · obtain ⟨rfl, last⟩ := List.append_inj' same rfl
      obtain rfl := List.head_eq_of_cons_eq last
      exact ⟨_, by simp, rfl⟩
    · rcases List.eq_nil_or_concat before with rfl | ⟨before, next, rfl⟩
      · have ends : first ++ [c] ++ [last] = body ++ [d] ++ [b] := by simpa using same
        have outer := (List.append_inj' ends rfl).1
        have inner := List.head_eq_of_cons_eq (List.append_inj' outer rfl).2
        rw [← inner, hc.isBreak] at hd
        cases hd
      · have ends : first ++ c :: before ++ [next] ++ [last] = body ++ [d] ++ [b] := by simpa using same
        obtain ⟨outer, final⟩ := List.append_inj' ends rfl
        obtain rfl := List.head_eq_of_cons_eq final
        obtain rfl := List.head_eq_of_cons_eq (List.append_inj' outer rfl).2
        have written : (before.concat next).concat last = before ++ [next] ++ [last] := by simp
        obtain ⟨line, filled, shown⟩ := ih written hd
        refine ⟨line, filled, ?_⟩
        rw [List.getLast?_cons, shown]
        rfl

/-! ### Scalars in literal blocks -/

theorem chompMark_cases {text : List Char} (filled : text ≠ []) :
    (chompMark text = ['-'] ∧ ∃ body d, text = body ++ [d] ∧ isBreak d = false) ∨
    (chompMark text = [] ∧ ∃ body d b, text = body ++ [d] ++ [b] ∧ isBreak d = false ∧ isBreak b = true) ∨
    (chompMark text = ['+'] ∧ ∃ body b, text = body ++ [b] ∧ isBreak b = true) := by
  rcases List.eq_nil_or_concat text with rfl | ⟨body, b, rfl⟩
  · exact absurd rfl filled
  · rw [List.concat_eq_append]
    cases hb : isBreak b with
    | false =>
      refine .inl ⟨?_, body, b, rfl, hb⟩
      rcases List.eq_nil_or_concat body with rfl | ⟨before, d, rfl⟩ <;> simp [chompMark, hb]
    | true =>
      rcases List.eq_nil_or_concat body with rfl | ⟨before, d, rfl⟩
      · exact .inr (.inr ⟨by simp [chompMark, hb], [], b, rfl, hb⟩)
      · rw [List.concat_eq_append]
        cases hd : isBreak d with
        | false => exact .inr (.inl ⟨by simp [chompMark, hb, hd], before, d, b, rfl, hd, hb⟩)
        | true => exact .inr (.inr ⟨by simp [chompMark, hb, hd], before ++ [d], b, rfl, hb⟩)

theorem literalFrom_concat {b : Char} (hb : isBreak b = true) (indent : Nat) (afterBreak : Bool) (text : List Char) :
    literalFrom indent afterBreak (text ++ [b]) = literalFrom indent afterBreak text ++ [b] := by
  induction text generalizing afterBreak with
  | nil => simp [literalFrom, hb]
  | cons c text ih =>
    rw [List.cons_append, literalFrom, literalFrom]
    split <;> simp [ih]

/-- A text as it stands in a literal block, where its last line is ended. -/
def ended (text : List Char) : List Char :=
  text ++ if (text.getLast?.map isBreak).getD true then [] else ['\n']

theorem literalBlock_eq (indent : Nat) (text : List Char) :
    literalBlock indent text = literalHeader text ++ '\n' :: literalFrom indent true (ended text) := by
  rw [literalBlock, ended]
  split
  · simp
  · rw [literalFrom_concat rfl]
    simp

theorem exists_getLast?_pieces {text body : List Char} {d b : Char} (h : Written text)
    (same : text = body ++ [d] ++ [b]) (hd : isBreak d = false) : ∃ first,
      ((linesOf text).map Line.piece).getLast? = some (first, [b]) ∧
      ∀ piece ∈ ((linesOf text).map Line.piece).getLast?, piece.1 ≠ [] := by
  obtain ⟨first, filled, last⟩ := getLast?_linesOf h same hd
  have shown : ((linesOf text).map Line.piece).getLast? = some (first, [b]) := by
    rw [List.getLast?_map, last, Option.map_some, Line.piece, Line.beyond_of]
    rfl
  refine ⟨first, shown, ?_⟩
  rw [shown]
  rintro _ ⟨⟩
  exact filled

/-- What the marks after a bar tell. -/
def marks (told : Bool) (text : List Char) : List Char := (if told then ['2'] else []) ++ chompMark text

/-- The block is read as its text: how it is chomped is told by its end. -/
theorem exists_header {text : List Char} (filled : text ≠ []) (h : Written (ended text)) (told : Bool) :
    ∃ header : BlockHeader, BlockHeader.of? true (marks told text) = some header ∧
      header.indent = (if told then some 2 else none) ∧
      blockText header ((linesOf (ended text)).map Line.piece) = text := by
  have whole : joined ((linesOf (ended text)).map Line.piece) = ended text := flatMap_pieces h
  rcases chompMark_cases filled with ⟨mark, body, d, rfl, hd⟩ | ⟨mark, body, d, b, rfl, hd, hb⟩ |
    ⟨mark, body, b, rfl, hb⟩
  · have more : ended (body ++ [d]) = body ++ [d] ++ ['\n'] := by simp [ended, hd]
    obtain ⟨first, last, filled⟩ := exists_getLast?_pieces h more hd
    refine ⟨⟨true, .strip, if told then some 2 else none⟩, by rw [marks, mark]; cases told <;> rfl, rfl, ?_⟩
    have read := @blockText_strip ⟨true, .strip, if told then some 2 else none⟩ _ rfl rfl filled
    rw [last] at read
    exact List.append_cancel_right (read.trans (whole.trans more))
  · have same : ended (body ++ [d] ++ [b]) = body ++ [d] ++ [b] := by simp [ended, hb]
    obtain ⟨first, -, filled⟩ := exists_getLast?_pieces h same hd
    refine ⟨⟨true, .clip, if told then some 2 else none⟩, by rw [marks, mark]; cases told <;> rfl, rfl, ?_⟩
    rw [blockText_clip rfl rfl filled, whole, same]
  · refine ⟨⟨true, .keep, if told then some 2 else none⟩, by rw [marks, mark]; cases told <;> rfl, rfl, ?_⟩
    rw [blockText_keep rfl rfl, whole]
    simp [ended, hb]

theorem literalHeader_eq (text : List Char) :
    literalHeader text = '|' :: marks ((text.head?.map isSpaceOrBreak).getD false) text := rfl

theorem shown_marks (told : Bool) (text : List Char) : Printable (marks told text) ∧ OneLine (marks told text) := by
  have mark : chompMark text = [] ∨ chompMark text = ['-'] ∨ chompMark text = ['+'] := by
    by_cases filled : text = []
    · rw [filled]
      exact .inr (.inl rfl)
    · rcases chompMark_cases filled with ⟨mark, -⟩ | ⟨mark, -⟩ | ⟨mark, -⟩ <;> simp [mark]
  rcases mark with mark | mark | mark <;> rw [marks, mark] <;> cases told <;> decide

theorem written_ended {text : List Char} (filled : text ≠ []) (printable : Printable text) :
    Written (ended text) := by
  rcases List.eq_nil_or_concat text with rfl | ⟨body, b, rfl⟩
  · exact absurd rfl filled
  · rw [List.concat_eq_append] at printable ⊢
    cases hb : isBreak b with
    | true =>
      have same : ended (body ++ [b]) = body ++ [b] := by simp [ended, hb]
      rw [same]
      exact ⟨printable, body, b, rfl, isEnd_of_isPrintable (printable b (by simp)) hb⟩
    | false =>
      have more : ended (body ++ [b]) = body ++ [b] ++ ['\n'] := by simp [ended, hb]
      rw [more]
      exact .line printable

theorem hasSpaceBreak_ended {text : List Char} (clean : hasSpaceBreak text = false)
    (last : text.getLast? ≠ some ' ') : hasSpaceBreak (ended text) = false := by
  rw [ended]
  split
  · rwa [List.append_nil]
  · refine anyPair_concat clean fun d mem => ?_
    have other : d ≠ ' ' := by
      rintro rfl
      exact last mem
    simp [other]

/-- A block is given its indentation if it starts with what would hide it. -/
theorem tellsIndent_ended {text : List Char} (filled : text ≠ []) (h : Written (ended text)) {header : BlockHeader}
    (indent : header.indent = if (text.head?.map isSpaceOrBreak).getD false then some 2 else none) :
    TellsIndent header (ended text) := by
  cases hidden : (text.head?.map isSpaceOrBreak).getD false with
  | true =>
    rw [hidden] at indent
    exact .inl indent
  | false =>
    rw [hidden] at indent
    refine .inr ⟨indent, ?_⟩
    obtain ⟨c, rest, rfl⟩ := List.exists_cons_of_ne_nil filled
    have dark : isSpaceOrBreak c = false := hidden
    obtain ⟨first, b, tail, same, plain, hb⟩ := h.exists_line
    have head : (first ++ b :: tail).head? = some c := by
      rw [← same]
      rfl
    rw [same, linesOf_line plain hb]
    cases first with
    | nil =>
      obtain rfl : b = c := Option.some.inj head
      simp [isSpaceOrBreak, hb.isBreak] at dark
    | cons d first =>
      obtain rfl : d = c := Option.some.inj head
      have solid : d ≠ ' ' := by
        rintro rfl
        simp [isSpaceOrBreak] at dark
      have line : Line.of (d :: first) [b] = ⟨0, d :: first, [b]⟩ := Line.of_spaces (by simpa using solid) 0 [b]
      rw [line]
      exact ⟨_, _, rfl, rfl, List.cons_ne_nil d first⟩

theorem leaf?_literalBlock {column : Nat} {rest : List Line} (stops : Stops column rest) {text : List Char}
    (filled : text ≠ []) (fits : fitsLiteral text = true) (start : Nat) :
    leaf? false (column + 1) (linesOf (spaces start ++ literalBlock (column + 2) text) ++ rest) =
      some (⟨String.ofList text, false⟩, .done :: rest) := by
  simp only [fitsLiteral, Bool.and_eq_true, List.all_eq_true, Bool.not_eq_true', decide_eq_true_eq] at fits
  obtain ⟨⟨printable, clean⟩, last⟩ := fits
  have h := written_ended filled printable
  have spaceBreak := hasSpaceBreak_ended clean last
  obtain ⟨header, marked, indent, read⟩ := exists_header filled h ((text.head?.map isSpaceOrBreak).getD false)
  have plain : OneLine (spaces start ++ literalHeader text) := by
    rw [literalHeader_eq]
    exact (OneLine.spaces start).append (.cons rfl (shown_marks _ text).2)
  have lines := linesOf_line plain (.inl rfl) (literalFrom (column + 2) true (ended text))
  rw [literalHeader_eq, Line.of_spaces (by simp)] at lines
  have block := blockScalar?_deeper stops h spaceBreak (tellsIndent_ended filled h indent)
  rw [literalBlock_eq, literalHeader_eq, ← List.append_assoc, lines, linesOf_literalFrom h spaceBreak]
  simp [leaf?, marked, block, read]

end SettingsSweep.Yaml

import SettingsSweep.Proofs.Yaml.Plain

/-!
Quoted scalars. What is written in quotes is read up to the closing quote as what it was: in single quotes the breaks
that are kept fold into themselves, and in double quotes every escape stands for the character that it was made of.
-/

set_option autoImplicit false

namespace SettingsSweep.Yaml

/-! ### Pieces of a text -/

theorem oneLine_or_exists (text : List Char) : OneLine text ∨ ∃ first b tail,
    text = first ++ b :: tail ∧ OneLine first ∧ isBreak b = true := by
  induction text with
  | nil => exact .inl (by decide)
  | cons c text ih =>
    cases hc : isBreak c with
    | true => exact .inr ⟨[], c, text, rfl, by decide, hc⟩
    | false =>
      rcases ih with plain | ⟨first, b, tail, rfl, plain, hb⟩
      · exact .inl (plain.cons hc)
      · exact .inr ⟨c :: first, b, tail, rfl, plain.cons hc, hb⟩

theorem anyPair_of_append {p : Char → Char → Bool} {text more : List Char}
    (h : anyPair p (text ++ more) = false) : anyPair p more = false := by
  induction text with
  | nil => exact h
  | cons c text ih =>
    refine ih ?_
    rw [List.cons_append] at h
    cases rest : text ++ more with
    | nil => rfl
    | cons d rest' =>
      rw [rest, anyPair, Bool.or_eq_false_iff] at h
      exact h.2

theorem anyPair_tail {p : Char → Char → Bool} {first tail : List Char} {b : Char}
    (h : anyPair p (first ++ b :: tail) = false) : anyPair p tail = false := by
  rw [List.append_cons] at h
  exact anyPair_of_append h

theorem not_of_anyPair {p : Char → Char → Bool} {text more : List Char} {a b : Char}
    (h : anyPair p (text ++ a :: b :: more) = false) : p a b = false := by
  have pair := anyPair_of_append h
  rw [anyPair, Bool.or_eq_false_iff] at pair
  exact pair.1

/-! ### Single quotes -/

def quoteDoubled (text : List Char) : List Char :=
  text.flatMap fun c => if c = '\'' then ['\'', '\''] else [c]

theorem quoteDoubled_cons (c : Char) (text : List Char) : quoteDoubled (c :: text) =
    (if c = '\'' then ['\'', '\''] else [c]) ++ quoteDoubled text := rfl

theorem quoteDoubled_ne_nil {text : List Char} (filled : text ≠ []) : quoteDoubled text ≠ [] := by
  cases text with
  | nil => exact absurd rfl filled
  | cons c text =>
    rw [quoteDoubled_cons]
    split <;> simp

theorem OneLine.quoteDoubled {text : List Char} (h : OneLine text) : OneLine (quoteDoubled text) := by
  intro c mem
  obtain ⟨d, hd, mem⟩ := List.mem_flatMap.1 mem
  split at mem
  · next quote =>
    obtain rfl : c = '\'' := by simpa using mem
    rfl
  · obtain rfl := List.mem_singleton.1 mem
    exact h c hd

theorem head?_quoteDoubled (text more : List Char) (hm : text = [] → more.head? ≠ some ' ')
    (ht : text.head? ≠ some ' ') : (quoteDoubled text ++ more).head? ≠ some ' ' := by
  cases text with
  | nil => exact hm rfl
  | cons c text =>
    rw [quoteDoubled_cons]
    split
    · simp
    · simpa using ht

theorem singleFrom_append {first : List Char} (plain : OneLine first) (indent : Nat) (rest : List Char) :
    singleFrom indent false (first ++ rest) = quoteDoubled first ++ singleFrom indent false rest := by
  induction first with
  | nil => rfl
  | cons c first ih =>
    obtain ⟨hc, plain⟩ := List.forall_mem_cons.1 plain
    rw [List.cons_append, singleFrom, ih plain, quoteDoubled_cons]
    simp [hc]

/-- After a break the first piece is indented, if there is any. -/
theorem singleFrom_true_append {first : List Char} (plain : OneLine first) (some : first ≠ []) (indent : Nat)
    (rest : List Char) : singleFrom indent true (first ++ rest) =
      spaces indent ++ (quoteDoubled first ++ singleFrom indent false rest) := by
  cases first with
  | nil => exact absurd rfl some
  | cons c first =>
    obtain ⟨hc, plain⟩ := List.forall_mem_cons.1 plain
    rw [List.cons_append, singleFrom, singleFrom_append plain, quoteDoubled_cons]
    simp [hc]

theorem singleLine_closed {after : List Char} (ends : after.head? ≠ some '\'') (text held : List Char) :
    singleLine held (quoteDoubled text ++ '\'' :: after) = (held ++ text, .closed after) := by
  induction text generalizing held with
  | nil =>
    change singleLine held ('\'' :: after) = _
    rw [singleLine, if_pos rfl, List.append_nil]
    rintro rest _ rfl
    exact ends rfl
  | cons c text ih =>
    rw [quoteDoubled_cons]
    by_cases quote : c = '\''
    · subst quote
      simp [singleLine, ih]
    · rw [if_neg quote, List.append_assoc, List.singleton_append, singleLine, if_neg quote]
      · split
        · rw [ih]
          simp
        · rw [ih]
          simp
      · rintro rest rfl
        exact absurd rfl quote

/-- The part of a line before its break is read to its end, for it does not end in white space. -/
theorem singleLine_open {c : Char} (hc : isGap c = false) (body held : List Char) :
    singleLine held (quoteDoubled (body ++ [c])) = (held ++ (body ++ [c]), .lineEnd) := by
  induction body generalizing held with
  | nil =>
    rw [List.nil_append, quoteDoubled_cons]
    by_cases quote : c = '\''
    · subst quote
      rfl
    · rw [if_neg quote]
      change singleLine held [c] = _
      rw [singleLine, if_neg quote, if_neg (by simp [hc])]
      · rfl
      · rintro rest rfl
        exact absurd rfl quote
  | cons d body ih =>
    rw [List.cons_append, quoteDoubled_cons]
    by_cases quote : d = '\''
    · subst quote
      simp [singleLine, ih]
    · rw [if_neg quote, List.singleton_append, singleLine, if_neg quote]
      · split
        · rw [ih]
          simp
        · rw [ih]
          simp
      · rintro rest rfl
        exact absurd rfl quote

/-- What a text can stand as in single quotes, in its parts. -/
structure FitsSingle (text : List Char) : Prop where
  printable : Printable text
  noFeed : '\n' ∉ text
  spaceBreak : hasSpaceBreak text = false
  breakSpace : hasBreakSpace text = false

namespace FitsSingle

variable {text first later : List Char} {b : Char}

theorem kept (h : FitsSingle text) {c : Char} (mem : c ∈ text) (hb : isBreak c = true) : isKeptBreak c = true := by
  rcases isEnd_of_isPrintable (h.printable c mem) hb with rfl | kept
  · exact absurd mem h.noFeed
  · exact kept

theorem tail (h : FitsSingle (first ++ b :: later)) : FitsSingle later where
  printable c mem := h.printable c (by simp [mem])
  noFeed mem := h.noFeed (by simp [mem])
  spaceBreak := anyPair_tail h.spaceBreak
  breakSpace := anyPair_tail h.breakSpace

theorem head?_tail (h : FitsSingle (first ++ b :: later)) (hb : isBreak b = true) : later.head? ≠ some ' ' := by
  intro space
  cases later with
  | nil => cases space
  | cons c later =>
    obtain rfl := Option.some.inj space
    have pair := not_of_anyPair h.breakSpace
    simp [hb] at pair

theorem isGap_last {body : List Char} {c : Char} (h : FitsSingle (body ++ [c] ++ b :: later))
    (hb : isBreak b = true) : isGap c = false := by
  have pair := h.spaceBreak
  rw [List.append_assoc, hasSpaceBreak] at pair
  have pair := not_of_anyPair pair
  rw [isGap_eq_beq (h.printable c (by simp))]
  simpa [hb] using pair

end FitsSingle

theorem skipGap_eq_self {text : List Char} (printable : Printable text)
    (head : text.head? ≠ some ' ') : skipGap text = text := by
  cases text with
  | nil => rfl
  | cons c text =>
    refine skipGap_cons ?_ text
    rw [isGap_eq_beq (printable c (by simp))]
    simpa using head

theorem Printable.quoteDoubled {text : List Char} (h : Printable text) : Printable (quoteDoubled text) := by
  intro c mem
  obtain ⟨d, hd, mem⟩ := List.mem_flatMap.1 mem
  split at mem
  · obtain rfl : c = '\'' := by simpa using mem
    rfl
  · obtain rfl := List.mem_singleton.1 mem
    exact h c hd

theorem Breaks.fold_of_kept {b : Char} (kept : isKeptBreak b = true) (more : List Char) :
    Breaks.fold ⟨[b], more⟩ = b :: more := by
  have ne : b ≠ '\n' := by
    rintro rfl
    cases kept
  simp [Breaks.fold, ne]

section

variable {line : Line} {lines : List Line} {text rest : List Char}

theorem quotedMore_closed (indented : 0 < line.indent) (start : skipGap line.text = line.text)
    (filled : line.text ≠ []) (read : singleLine [] line.text = (text, .closed rest)) (breaks : Breaks) :
    quotedMore '\'' breaks (line :: lines) = some (breaks.fold ++ text, line.rest rest :: lines) := by
  rw [quotedMore, Line.bounds_of_indent indented, start]
  cases shown : line.text with
  | nil => exact absurd shown filled
  | cons c chars => simp [quotedLine, ← shown, read]

theorem quotedMore_open (indented : 0 < line.indent) (start : skipGap line.text = line.text)
    (filled : line.text ≠ []) (read : singleLine [] line.text = (text, .lineEnd)) (breaks : Breaks) :
    quotedMore '\'' breaks (line :: lines) = (quotedMore '\'' ⟨line.ending, []⟩ lines).map fun (more, lines) =>
      (breaks.fold ++ text ++ more, lines) := by
  rw [quotedMore, Line.bounds_of_indent indented, start]
  cases shown : line.text with
  | nil => exact absurd shown filled
  | cons c chars =>
    simp only [quotedLine, ← shown, read]
    cases quotedMore '\'' ⟨line.ending, []⟩ lines <;> rfl

theorem quotedMore_empty (b : Char) (breaks : Breaks) :
    quotedMore '\'' breaks (Line.of [] [b] :: lines) = quotedMore '\'' (breaks.add [b]) lines := rfl

end

theorem singleFrom_break {b : Char} (hb : isBreak b = true) (indent : Nat) (afterBreak : Bool) (tail : List Char) :
    singleFrom indent afterBreak (b :: tail) = b :: singleFrom indent true tail := by
  rw [singleFrom, if_pos hb]

theorem singleFrom_of_oneLine {text : List Char} (plain : OneLine text) (indent : Nat) :
    singleFrom indent true text = spaces indent ++ (quoteDoubled text ++ ['\'']) := by
  by_cases none : text = []
  · subst none
    rfl
  · have whole := singleFrom_true_append plain none indent []
    rw [List.append_nil] at whole
    rw [whole]
    rfl

/-- By induction on the lines: what follows a break in single quotes is read with the breaks before it. -/
theorem quotedMore_singleFrom {indent : Nat} (pos : 0 < indent) (rest : List Line) (text : List Char)
    (fits : FitsSingle text) (head : text.head? ≠ some ' ') {b : Char} (kept : isKeptBreak b = true)
    (more : List Char) :
    quotedMore '\'' ⟨[b], more⟩ (linesOf (singleFrom indent true text ++ ['\n']) ++ rest) =
      some (b :: more ++ text, ⟨indent + 1, [], ['\n']⟩ :: rest) := by
  induction len : text.length using Nat.strongRecOn generalizing text b more with
  | ind n ih =>
    have fold := Breaks.fold_of_kept kept more
    rcases oneLine_or_exists text with plain | ⟨first, b', tail, rfl, plain, hb⟩
    · -- The last line, with the closing quote.
      have solid := head?_quoteDoubled text ['\''] (fun _ => by simp) head
      have shown : Printable (quoteDoubled text ++ ['\'']) := fits.printable.quoteDoubled.append (by decide)
      have line : OneLine (spaces indent ++ (quoteDoubled text ++ ['\''])) :=
        (OneLine.spaces indent).append (plain.quoteDoubled.append (by decide))
      rw [singleFrom_of_oneLine plain, linesOf_line line (.inl rfl), Line.of_spaces solid]
      rw [List.cons_append, quotedMore_closed pos (skipGap_eq_self shown solid) (by simp)
        (singleLine_closed (by simp) text []), fold]
      rfl
    · have here : isKeptBreak b' = true := fits.kept (by simp) hb
      have shorter : tail.length < n := by simp [← len]; omega
      rcases List.eq_nil_or_concat first with rfl | ⟨body, c, rfl⟩
      · have line := linesOf_line plain (.inr here) (singleFrom indent true tail ++ ['\n'])
        rw [List.nil_append] at line
        rw [List.nil_append, singleFrom_break hb, List.cons_append, line, List.cons_append, quotedMore_empty]
        have read := ih _ shorter tail fits.tail (fits.head?_tail hb) kept (more ++ [b']) rfl
        rw [Breaks.add, read]
        simp
      · rw [List.concat_eq_append] at fits plain head ⊢
        have solid := head?_quoteDoubled (body ++ [c]) [] (by simp) (by cases body <;> simpa using head)
        rw [List.append_nil] at solid
        have shown : Printable (body ++ [c]) := fun d mem => fits.printable d (List.mem_append_left _ mem)
        have line := linesOf_line ((OneLine.spaces indent).append plain.quoteDoubled) (.inr here)
          (singleFrom indent true tail ++ ['\n'])
        rw [Line.of_spaces solid] at line
        rw [singleFrom_true_append plain (by simp), singleFrom_break hb]
        simp only [List.append_assoc, List.cons_append] at line ⊢
        rw [line, List.cons_append, quotedMore_open pos (skipGap_eq_self shown.quoteDoubled solid)
          (quoteDoubled_ne_nil (by simp)) (singleLine_open (fits.isGap_last hb) body []), fold]
        have read := ih _ shorter tail fits.tail (fits.head?_tail hb) here [] rfl
        rw [read]
        simp

/-! ### Scalars in single quotes -/

theorem singleQuoted_of_oneLine {text : List Char} (plain : OneLine text) (indent : Nat) :
    singleQuoted indent text = '\'' :: (quoteDoubled text ++ ['\'']) := by
  have whole := singleFrom_append plain indent []
  rw [List.append_nil] at whole
  rw [singleQuoted, whole]
  rfl

theorem singleQuoted_cases (indent : Nat) {text : List Char} (fits : FitsSingle text) :
    OneLine text ∧ singleQuoted indent text = '\'' :: (quoteDoubled text ++ ['\'']) ∨
    ∃ first b tail, text = first ++ b :: tail ∧ OneLine first ∧ isKeptBreak b = true ∧
      singleLine [] (quoteDoubled first) = (first, .lineEnd) ∧
      singleQuoted indent text = '\'' :: quoteDoubled first ++ b :: singleFrom indent true tail := by
  rcases oneLine_or_exists text with plain | ⟨first, b, tail, rfl, plain, hb⟩
  · exact .inl ⟨plain, singleQuoted_of_oneLine plain indent⟩
  · refine .inr ⟨first, b, tail, rfl, plain, fits.kept (by simp) hb, ?_, ?_⟩
    · rcases List.eq_nil_or_concat first with rfl | ⟨body, c, rfl⟩
      · rfl
      · rw [List.concat_eq_append] at fits ⊢
        exact singleLine_open (fits.isGap_last hb) body []
    · rw [singleQuoted, singleFrom_append plain, singleFrom_break hb]
      rfl

theorem leaf?_singleQuoted {indent : Nat} (pos : 0 < indent) {text : List Char} (fits : FitsSingle text)
    (least start : Nat) (rest : List Line) : ∃ last,
      leaf? false least (linesOf (spaces start ++ (singleQuoted indent text ++ ['\n'])) ++ rest) =
        some (⟨String.ofList text, false⟩, ⟨last, [], ['\n']⟩ :: rest) := by
  rcases singleQuoted_cases indent fits with ⟨plain, written⟩ |
    ⟨first, b, tail, rfl, plain, kept, read, written⟩
  · have line : OneLine (spaces start ++ '\'' :: (quoteDoubled text ++ ['\''])) :=
      (OneLine.spaces start).append ((plain.quoteDoubled.append (by decide)).cons rfl)
    have lines := linesOf_line line (.inl rfl) []
    rw [Line.of_spaces (by simp)] at lines
    refine ⟨start + 1 + 1, ?_⟩
    rw [written, ← List.append_assoc, lines]
    have read : singleLine [] (quoteDoubled text ++ ['\'']) = (text, .closed []) :=
      singleLine_closed (by simp) text []
    simp [leaf?, quoted?, quotedLine, Line.rest, read, linesOf, linesFrom]
  · have line : OneLine (spaces start ++ '\'' :: quoteDoubled first) :=
      (OneLine.spaces start).append (plain.quoteDoubled.cons rfl)
    have lines := linesOf_line line (.inr kept) (singleFrom indent true tail ++ ['\n'])
    rw [Line.of_spaces (by simp)] at lines
    have more := quotedMore_singleFrom pos rest tail fits.tail
      (fits.head?_tail (IsEnd.isBreak (.inr kept))) kept []
    refine ⟨indent + 1, ?_⟩
    rw [written]
    simp only [List.append_assoc, List.cons_append] at lines ⊢
    rw [lines]
    simp [leaf?, quoted?, quotedLine, Line.rest, read, more]

theorem startsInline_singleQuoted (indent : Nat) {text : List Char} (fits : FitsSingle text) : ∃ first b tail,
    singleQuoted indent text ++ ['\n'] = first ++ b :: tail ∧ OneLine first ∧ IsEnd b ∧ StartsInline first := by
  rcases singleQuoted_cases indent fits with ⟨plain, written⟩ |
    ⟨first, b, tail, rfl, plain, kept, read, written⟩
  · have read : singleLine [] (quoteDoubled text ++ ['\'']) = (text, .closed []) :=
      singleLine_closed (by simp) text []
    refine ⟨_, '\n', [], by rw [written], (plain.quoteDoubled.append (by decide)).cons rfl, .inl rfl,
      ⟨'\'', _, rfl, rfl, by decide⟩, rfl, rfl, ?_⟩
    unfold keyValue?
    simp [quotedLine, read, skipGap]
  · refine ⟨'\'' :: quoteDoubled first, b, singleFrom indent true tail ++ ['\n'], by rw [written]; simp,
      plain.quoteDoubled.cons rfl, .inr kept, ⟨'\'', _, rfl, rfl, by decide⟩, rfl, rfl, ?_⟩
    unfold keyValue?
    simp [quotedLine, read]

/-- A quoted scalar on one line is a key if a colon follows it. -/
theorem keyValue?_of_quotedLine {mark : Char} (quote : mark = '"' ∨ mark = '\'') {rest text value : List Char}
    (read : quotedLine mark rest = some (text, .closed (':' :: value))) (gap : atGap value = true)
    (short : rest.length ≤ value.length + maxKey) : keyValue? (mark :: rest) = some (String.ofList text, value) := by
  have bound : (mark :: rest).length ≤ value.length + 1 + maxKey := by
    rw [List.length_cons]
    omega
  have colon : skipGap (':' :: value) = ':' :: value := skipGap_cons rfl value
  simp only [keyValue?, if_pos quote, read, colon]
  exact if_pos ⟨gap, bound⟩

theorem keyValue?_singleQuoted {text value : List Char} (plain : OneLine text) (gap : atGap value = true)
    (short : (singleQuoted 0 text).length ≤ maxKey) :
    keyValue? (singleQuoted 0 text ++ ':' :: value) = some (String.ofList text, value) := by
  have read : singleLine [] (quoteDoubled text ++ '\'' :: ':' :: value) = (text, .closed (':' :: value)) :=
    singleLine_closed (by simp) text []
  rw [singleQuoted_of_oneLine plain] at short ⊢
  rw [List.cons_append, List.append_assoc]
  refine keyValue?_of_quotedLine (.inr rfl) (congrArg some read) gap ?_
  simp only [List.length_cons, List.length_append, List.length_nil] at short ⊢
  omega

/-! ### Double quotes -/

theorem foldl_hexDigits (count n : Nat) :
    ((List.range count).map fun i => n / Nat.pow 16 (count - 1 - i) % 16).foldl (fun n d => n * 16 + d) 0 =
      n % Nat.pow 16 count := by
  have power (k : Nat) : Nat.pow 16 (k + 1) = 16 * Nat.pow 16 k := Nat.mul_comm _ _
  induction count generalizing n with
  | zero => exact (Nat.mod_one n).symm
  | succ count ih =>
    have digits : ((List.range count).map fun i => n / Nat.pow 16 (count + 1 - 1 - i) % 16) =
        (List.range count).map fun i => n / 16 / Nat.pow 16 (count - 1 - i) % 16 := by
      refine List.map_congr_left fun i mem => ?_
      have lt := List.mem_range.1 mem
      have exponent : count + 1 - 1 - i = (count - 1 - i) + 1 := by omega
      rw [exponent, power, Nat.div_div_eq_div_mul]
    have last : n / Nat.pow 16 (count + 1 - 1 - count) % 16 = n % 16 := by
      rw [Nat.add_sub_cancel, Nat.sub_self]
      exact congrArg (· % 16) (Nat.div_one n)
    rw [List.range_succ, List.map_append, digits, List.foldl_append, ih, List.map_singleton, List.foldl_cons,
      List.foldl_nil, last, power, Nat.mod_mul]
    omega

theorem hexValue?_hexDigit {d : Nat} (lt : d < 16) : hexValue? (hexDigit d) = some d := by
  have all : ∀ d < 16, hexValue? (hexDigit d) = some d := by decide
  exact all d lt

theorem mapM_hexDigits (count n : Nat) : (hexDigits count n).mapM hexValue? =
    some ((List.range count).map fun i => n / Nat.pow 16 (count - 1 - i) % 16) := by
  rw [hexDigits]
  induction List.range count with
  | nil => rfl
  | cons i places ih =>
    rw [List.map_cons, List.mapM_cons, ih, hexValue?_hexDigit (Nat.mod_lt _ (by decide))]
    rfl

theorem length_hexDigits (count n : Nat) : (hexDigits count n).length = count := by
  simp [hexDigits]

theorem hexChar?_hexDigits {count : Nat} {c : Char} (lt : c.toNat < Nat.pow 16 count) (more : List Char) :
    hexChar? count (hexDigits count c.toNat ++ more) = some c := by
  have taken : (hexDigits count c.toNat ++ more).take count = hexDigits count c.toNat :=
    List.take_left' (length_hexDigits count c.toNat)
  have valid : c.toNat.isValidChar := c.valid
  have number := (foldl_hexDigits count c.toNat).trans (Nat.mod_eq_of_lt lt)
  rw [hexChar?, taken, mapM_hexDigits, Option.bind_eq_bind, Option.bind_some, number]
  simp [valid]

/-- A letter and digits after a backslash stand for a character. -/
structure IsEscape (c letter : Char) (digits : List Char) : Prop where
  shown : ∀ d ∈ letter :: digits, isPrintable d = true ∧ isBreak d = false
  short : digits.length + 2 ≤ 4 * c.utf8Size
  read : ∀ more, escape? letter (digits ++ more) = some (c, digits.length)

theorem shown_hexDigit (d : Nat) : isPrintable (hexDigit (d % 16)) = true ∧ isBreak (hexDigit (d % 16)) = false := by
  have all : ∀ d < 16, isPrintable (hexDigit d) = true ∧ isBreak (hexDigit d) = false := by decide
  exact all _ (Nat.mod_lt d (by decide))

theorem isEscape_hexDigits {c letter : Char} {count : Nat}
    (coded : ∀ rest, escape? letter rest = (hexChar? count rest).map fun c => (c, count))
    (shown : isPrintable letter = true ∧ isBreak letter = false) (lt : c.toNat < Nat.pow 16 count)
    (short : count + 2 ≤ 4 * c.utf8Size) : IsEscape c letter (hexDigits count c.toNat) where
  shown d mem := by
    rcases List.mem_cons.1 mem with rfl | mem
    · exact shown
    · obtain ⟨i, -, rfl⟩ := List.mem_map.1 mem
      exact shown_hexDigit _
  short := by rwa [length_hexDigits]
  read more := by
    rw [coded, hexChar?_hexDigits lt, length_hexDigits]
    rfl

theorem utf8Size_bounds (c : Char) : 1 ≤ c.utf8Size ∧ (0x7F < c.toNat → 2 ≤ c.utf8Size) ∧
    (0xFFFF < c.toNat → c.utf8Size = 4) := by
  have value : c.toNat = c.val.toNat := rfl
  rw [Char.utf8Size, value]
  simp only [UInt32.le_iff_toNat_le, UInt32.toNat_ofNatLT]
  split_ifs <;> omega

theorem of_lookup {p : Char → Char → Prop} {table : List (Char × Char)} (all : ∀ entry ∈ table, p entry.1 entry.2)
    {c d : Char} (found : table.lookup c = some d) : p c d := by
  obtain ⟨before, after, rfl, -⟩ := List.lookup_eq_some_iff.1 found
  exact all (c, d) (by simp)

theorem isEscape_letter {c letter : Char} (named : escapeLetter? c = some letter) : IsEscape c letter [] := by
  obtain ⟨shown, coded, stands⟩ := @of_lookup (fun c letter =>
    (isPrintable letter = true ∧ isBreak letter = false) ∧ letter ∉ ['x', 'u', 'U'] ∧
      namedEscapes.lookup letter = some c) _ (by decide) c letter named
  refine ⟨by simpa using shown, ?_, fun more => ?_⟩
  · have := (utf8Size_bounds c).1
    rw [List.length_nil]
    omega
  · simp only [List.mem_cons, List.not_mem_nil, or_false, not_or] at coded
    simp [escape?, coded, stands]

theorem exists_escaped (c : Char) : ∃ letter digits,
    escaped c = '\\' :: letter :: digits ∧ IsEscape c letter digits := by
  obtain ⟨one, two, four⟩ := utf8Size_bounds c
  rw [escaped]
  cases named : escapeLetter? c with
  | some letter =>
    exact ⟨letter, [], rfl, isEscape_letter named⟩
  | none =>
    dsimp only
    split
    · next low =>
      have lt : c.toNat < Nat.pow 16 2 := Nat.lt_succ_of_le low
      exact ⟨'x', _, rfl, isEscape_hexDigits (fun _ => rfl) (by decide) lt (by omega)⟩
    · split
      · next low =>
        have lt : c.toNat < Nat.pow 16 4 := Nat.lt_succ_of_le low
        exact ⟨'u', _, rfl, isEscape_hexDigits (fun _ => rfl) (by decide) lt (by omega)⟩
      · have lt : c.toNat < Nat.pow 16 8 := c.val.toNat_lt
        exact ⟨'U', _, rfl, isEscape_hexDigits (fun _ => rfl) (by decide) lt (by omega)⟩

def needsEscape (c : Char) : Bool := !isPrintable c || isBreak c || c == '"' || c == '\\'

def withEscapes (text : List Char) : List Char :=
  text.flatMap fun c => if needsEscape c then escaped c else [c]

theorem doubleQuoted_eq (text : List Char) : doubleQuoted text = '"' :: (withEscapes text ++ ['"']) := rfl

theorem doubleLine_skip (held skipped rest : List Char) :
    doubleLine held skipped.length (skipped ++ rest) = doubleLine held 0 rest := by
  induction skipped with
  | nil => rfl
  | cons c skipped ih => rw [List.length_cons, List.cons_append, doubleLine, ih]

theorem doubleLine_closed (text held after : List Char) :
    doubleLine held 0 (withEscapes text ++ '"' :: after) = some (held ++ text, .closed after) := by
  induction text generalizing held with
  | nil => simp [withEscapes, doubleLine]
  | cons c text ih =>
    have rest : withEscapes (c :: text) = (if needsEscape c then escaped c else [c]) ++ withEscapes text := rfl
    rw [rest]
    split
    · obtain ⟨letter, digits, written, escape⟩ := exists_escaped c
      have skip := doubleLine_skip [] (letter :: digits) (withEscapes text ++ '"' :: after)
      rw [written, List.append_assoc, List.cons_append, List.cons_append, doubleLine, escape.read]
      simp only [List.length_cons, List.cons_append] at skip
      simp [skip, ih]
    · next plain =>
      simp only [needsEscape, Bool.or_eq_true, Bool.not_eq_true', beq_iff_eq, not_or] at plain
      rw [List.append_assoc, List.singleton_append, doubleLine, if_neg plain.1.2]
      · split <;> simp [ih]
      · exact plain.2

theorem shown_withEscapes (text : List Char) : ∀ d ∈ withEscapes text, isPrintable d = true ∧ isBreak d = false := by
  intro d mem
  obtain ⟨c, -, mem⟩ := List.mem_flatMap.1 mem
  split at mem
  · obtain ⟨letter, digits, written, escape⟩ := exists_escaped c
    rw [written] at mem
    rcases List.mem_cons.1 mem with rfl | mem
    · decide
    · exact escape.shown d mem
  · next plain =>
    obtain rfl := List.mem_singleton.1 mem
    simp only [needsEscape, Bool.or_eq_true, Bool.not_eq_true', beq_iff_eq, not_or] at plain
    simpa using plain.1.1

theorem oneLine_doubleQuoted (text : List Char) : OneLine (doubleQuoted text) := by
  rw [doubleQuoted_eq]
  exact OneLine.cons rfl (OneLine.append (fun d mem => (shown_withEscapes text d mem).2) (by decide))

theorem quotedLine_doubleQuoted (text after : List Char) :
    quotedLine '"' (withEscapes text ++ '"' :: after) = some (text, .closed after) := by
  rw [quotedLine, if_pos rfl, doubleLine_closed]
  rfl

theorem leaf?_doubleQuoted (text : List Char) (least start : Nat) (rest : List Line) :
    leaf? false least (linesOf (spaces start ++ (doubleQuoted text ++ ['\n'])) ++ rest) =
      some (⟨String.ofList text, false⟩, ⟨start + 1 + 1, [], ['\n']⟩ :: rest) := by
  have lines := linesOf_line ((OneLine.spaces start).append (oneLine_doubleQuoted text)) (.inl rfl) []
  have read := quotedLine_doubleQuoted text []
  rw [doubleQuoted_eq] at lines ⊢
  rw [Line.of_spaces (by simp)] at lines
  rw [← List.append_assoc, lines]
  simp [leaf?, quoted?, Line.rest, read, linesOf, linesFrom]

theorem startsInline_doubleQuoted (text : List Char) : StartsInline (doubleQuoted text) := by
  have read := quotedLine_doubleQuoted text []
  rw [doubleQuoted_eq]
  refine ⟨⟨'"', _, rfl, rfl, by decide⟩, rfl, rfl, ?_⟩
  unfold keyValue?
  simp [read, skipGap]

theorem keyValue?_doubleQuoted {text value : List Char} (gap : atGap value = true)
    (short : (doubleQuoted text).length ≤ maxKey) :
    keyValue? (doubleQuoted text ++ ':' :: value) = some (String.ofList text, value) := by
  have read := quotedLine_doubleQuoted text (':' :: value)
  rw [doubleQuoted_eq] at short ⊢
  rw [List.cons_append, List.append_assoc]
  refine keyValue?_of_quotedLine (.inl rfl) read gap ?_
  simp only [List.length_cons, List.length_append, List.length_nil] at short ⊢
  omega

/-! ### Lengths -/

theorem utf8ByteSize_ofList_cons (c : Char) (text : List Char) :
    (String.ofList (c :: text)).utf8ByteSize = c.utf8Size + (String.ofList text).utf8ByteSize := by
  have split : String.ofList (c :: text) = String.singleton c ++ String.ofList text := by
    rw [← String.toList_inj]
    simp
  rw [split, String.utf8ByteSize_append, String.utf8ByteSize_singleton]

theorem length_flatMap_le {f : Char → List Char} (bound : ∀ c, (f c).length ≤ 4 * c.utf8Size) (text : List Char) :
    (text.flatMap f).length ≤ 4 * (String.ofList text).utf8ByteSize := by
  induction text with
  | nil => simp
  | cons c text ih =>
    have here := bound c
    rw [List.flatMap_cons, List.length_append, utf8ByteSize_ofList_cons]
    omega

theorem length_doubleQuoted_le (text : List Char) :
    (doubleQuoted text).length ≤ 4 * (String.ofList text).utf8ByteSize + 2 := by
  have escapes : (withEscapes text).length ≤ 4 * (String.ofList text).utf8ByteSize := by
    refine length_flatMap_le (fun c => ?_) text
    split
    · obtain ⟨letter, digits, written, escape⟩ := exists_escaped c
      have short := escape.short
      rw [written, List.length_cons, List.length_cons]
      omega
    · have := (utf8Size_bounds c).1
      rw [List.length_singleton]
      omega
  rw [doubleQuoted_eq, List.length_cons, List.length_append, List.length_singleton]
  omega

theorem length_singleQuoted_le {text : List Char} (plain : OneLine text) :
    (singleQuoted 0 text).length ≤ 4 * (String.ofList text).utf8ByteSize + 2 := by
  have quotes : (quoteDoubled text).length ≤ 4 * (String.ofList text).utf8ByteSize := by
    refine length_flatMap_le (fun c => ?_) text
    have := (utf8Size_bounds c).1
    split
    · simp
      omega
    · rw [List.length_singleton]
      omega
  rw [singleQuoted_of_oneLine plain, List.length_cons, List.length_append, List.length_singleton]
  omega

theorem length_le_utf8ByteSize (text : List Char) : text.length ≤ 4 * (String.ofList text).utf8ByteSize := by
  have same : text.flatMap (fun c => [c]) = text := List.flatMap_singleton' text
  have bound := length_flatMap_le (f := fun c => [c]) (fun c => by
    have := (utf8Size_bounds c).1
    rw [List.length_singleton]
    omega) text
  rwa [same] at bound

end SettingsSweep.Yaml

import SettingsSweep.Yaml.Printer
import SettingsSweep.Yaml.Reader
import Mathlib.Data.List.Basic

/-!
The lines of a text that is written. It has only breaks that are kept as they are, and each of its parts ends with
one, so that its lines are those of its parts.
-/

set_option autoImplicit false

namespace SettingsSweep.Yaml

def IsEnd (b : Char) : Prop := b = '\n' ∨ isKeptBreak b = true

theorem IsEnd.isBreak {b : Char} (h : IsEnd b) : isBreak b = true := by
  rcases h with rfl | h
  · rfl
  · simp [Yaml.isBreak, h]

/-- What can be written as it is breaks lines only with breaks that are kept. -/
theorem isEnd_of_isPrintable {c : Char} (printable : isPrintable c = true) (h : isBreak c = true) : IsEnd c := by
  simp only [isBreak, Bool.or_eq_true, beq_iff_eq] at h
  rcases h with ((rfl | rfl) | rfl) | h
  · exact .inl rfl
  · exact absurd printable (by decide)
  · exact absurd printable (by decide)
  · exact .inr h

def OneLine (text : List Char) : Prop := ∀ c ∈ text, isBreak c = false

instance (text : List Char) : Decidable (OneLine text) :=
  List.decidableBAll _ text

namespace OneLine

variable {text more : List Char}

theorem cons {c : Char} (h : isBreak c = false) (rest : OneLine text) : OneLine (c :: text) :=
  List.forall_mem_cons.2 ⟨h, rest⟩

theorem append (h : OneLine text) (h' : OneLine more) : OneLine (text ++ more) := by
  intro c mem
  rcases List.mem_append.1 mem with mem | mem
  · exact h c mem
  · exact h' c mem

theorem spaces (count : Nat) : OneLine (spaces count) := by
  intro c mem
  rw [List.eq_of_mem_replicate mem]
  rfl

end OneLine

def Printable (text : List Char) : Prop := ∀ c ∈ text, isPrintable c = true

instance (text : List Char) : Decidable (Printable text) :=
  List.decidableBAll _ text

namespace Printable

variable {text more : List Char}

theorem nil : Printable [] := by decide

theorem cons {c : Char} (h : isPrintable c = true) (rest : Printable text) : Printable (c :: text) :=
  List.forall_mem_cons.2 ⟨h, rest⟩

theorem append (h : Printable text) (h' : Printable more) : Printable (text ++ more) :=
  List.forall_mem_append.2 ⟨h, h'⟩

theorem spaces (count : Nat) : Printable (spaces count) := by
  intro c mem
  rw [List.eq_of_mem_replicate mem]
  rfl

end Printable

theorem linesFrom_cons {c : Char} (h : isBreak c = false) (chars rest : List Char) :
    linesFrom chars (c :: rest) = linesFrom (c :: chars) rest := by
  have kept : isKeptBreak c = false := by
    simp only [isBreak, Bool.or_eq_false_iff] at h
    exact h.2
  rw [linesFrom, if_neg (by simp [kept]), if_neg (by simp [h])]
  rintro rest rfl
  cases h

theorem linesFrom_line {body : List Char} (plain : OneLine body) {b : Char} (hb : IsEnd b)
    (chars tail : List Char) :
    linesFrom chars (body ++ b :: tail) = Line.of (chars.reverse ++ body) [b] :: linesOf tail := by
  induction body generalizing chars with
  | nil =>
    rw [List.append_nil, List.nil_append]
    rcases hb with rfl | kept
    · rfl
    · rw [linesFrom, if_pos kept]
      · rfl
      · rintro rest rfl
        cases kept
  | cons c body ih =>
    obtain ⟨hc, plain⟩ := List.forall_mem_cons.1 plain
    rw [List.cons_append, linesFrom_cons hc, ih plain]
    simp

/-- A line up to its break, and the lines after it. -/
theorem linesOf_line {body : List Char} (plain : OneLine body) {b : Char} (hb : IsEnd b) (tail : List Char) :
    linesOf (body ++ b :: tail) = Line.of body [b] :: linesOf tail :=
  linesFrom_line plain hb [] tail

theorem Line.of_spaces {text : List Char} (solid : text.head? ≠ some ' ') (count : Nat) (ending : List Char) :
    Line.of (spaces count ++ text) ending = ⟨count, text, ending⟩ := by
  have skipped : (spaces count ++ text).dropWhile (· = ' ') = text := by
    rw [List.dropWhile_append_of_pos (by simp [spaces])]
    cases text with
    | nil => rfl
    | cons c rest => exact List.dropWhile_cons_of_neg (by simpa using solid)
  rw [Line.of, skipped]
  simp [spaces]

/-- A text whose lines are all ended and hold only what can be written as it is. -/
structure Written (text : List Char) : Prop where
  printable : Printable text
  ended : ∃ body b, text = body ++ [b] ∧ IsEnd b

namespace Written

variable {text more : List Char}

theorem prepend (before : Printable text) (h : Written more) : Written (text ++ more) := by
  obtain ⟨body, b, rfl, hb⟩ := h.ended
  exact ⟨before.append h.printable, text ++ body, b, (List.append_assoc ..).symm, hb⟩

theorem cons {c : Char} (shown : isPrintable c = true) (h : Written more) : Written (c :: more) :=
  h.prepend (Printable.nil.cons shown)

theorem append (h : Written text) (h' : Written more) : Written (text ++ more) := h'.prepend h.printable

theorem line (before : Printable text) : Written (text ++ ['\n']) :=
  prepend before ⟨by decide, [], '\n', rfl, .inl rfl⟩

theorem ne_nil (h : Written text) : text ≠ [] := by
  obtain ⟨body, b, rfl, -⟩ := h.ended
  simp

theorem exists_line (h : Written text) : ∃ first b tail,
    text = first ++ b :: tail ∧ OneLine first ∧ IsEnd b := by
  obtain ⟨printable, body, b, rfl, hb⟩ := h
  induction body with
  | nil => exact ⟨[], b, [], rfl, by simp [OneLine], hb⟩
  | cons c body ih =>
    cases hc : isBreak c with
    | true => exact ⟨[], c, _, rfl, by simp [OneLine], isEnd_of_isPrintable (printable c (by simp)) hc⟩
    | false =>
      obtain ⟨first, b', tail, same, plain, hb'⟩ := ih fun c mem => printable c (by simp_all)
      exact ⟨c :: first, b', tail, by rw [List.cons_append, same]; rfl, plain.cons hc, hb'⟩

theorem of_append (h : Written (text ++ more)) (filled : more ≠ []) : Written more := by
  refine ⟨fun c mem => h.printable c (List.mem_append_right _ mem), more.dropLast, more.getLast filled,
    (List.dropLast_append_getLast filled).symm, ?_⟩
  obtain ⟨body, last, same, hl⟩ := h.ended
  have final : (text ++ more).getLast? = some last := by simp [same]
  rw [List.getLast?_append, List.getLast?_eq_some_getLast filled] at final
  obtain rfl : more.getLast filled = last := by simpa using final
  exact hl

/-- By induction on the lines. -/
theorem lines_induction {motive : List Char → Prop} (nil : motive [])
    (line : ∀ {first b tail}, Written (first ++ b :: tail) → OneLine first → IsEnd b → motive tail →
      motive (first ++ b :: tail)) (h : Written text) : motive text := by
  induction len : text.length using Nat.strongRecOn generalizing text with
  | ind n ih =>
    obtain ⟨first, b, tail, rfl, plain, hb⟩ := h.exists_line
    refine line h plain hb ?_
    by_cases last : tail = []
    · exact last ▸ nil
    · have later : Written ((first ++ [b]) ++ tail) := by simpa using h
      exact ih tail.length (by simp [← len]; omega) (later.of_append last) rfl

theorem linesOf_append (h : Written text) (more : List Char) :
    linesOf (text ++ more) = linesOf text ++ linesOf more := by
  refine lines_induction (motive := fun text => linesOf (text ++ more) = linesOf text ++ linesOf more) rfl ?_ h
  intro first b tail _ plain hb ih
  rw [List.append_assoc, List.cons_append, linesOf_line plain hb, linesOf_line plain hb, List.cons_append, ih]

end Written

def Line.IsSolid (line : Line) : Prop := ∃ c rest, line.text = c :: rest ∧ isGap c = false ∧ c ≠ '#'

theorem skipLines_of_isSolid {line : Line} (h : line.IsSolid) (lines : List Line) :
    skipLines (line :: lines) = line :: lines := by
  obtain ⟨c, rest, text, -, hc⟩ := h
  rw [skipLines, text, endsLine]
  simp [hc]

/-- The lines go on at a column or before it. -/
def Stops (column : Nat) (lines : List Line) : Prop :=
  ∀ line ∈ lines.head?, line.indent ≤ column ∧ line.IsSolid

theorem Stops.mono {column more : Nat} (le : column ≤ more) {lines : List Line} (h : Stops column lines) :
    Stops more lines := fun line mem => ⟨Nat.le_trans (h line mem).1 le, (h line mem).2⟩

theorem Stops.skipLines {column : Nat} {lines : List Line} (h : Stops column lines) :
    skipLines lines = lines := by
  cases lines with
  | nil => rfl
  | cons line lines => exact skipLines_of_isSolid (h line rfl).2 lines

theorem Line.bounds_of_indent {line : Line} (h : 0 < line.indent) : line.bounds = false := by
  obtain ⟨indent, text, ending⟩ := line
  obtain ⟨n, rfl⟩ := Nat.exists_eq_succ_of_ne_zero (Nat.ne_of_gt h)
  rfl

end SettingsSweep.Yaml

import SettingsSweep.Text.Blank

/-!
Pieces of a text between separators, lines, and the removal of comment lines.
-/

set_option autoImplicit false

namespace SettingsSweep.Text

/-- The pieces between the separators: one more than there are separators. -/
def splitOn (sep : Char) : List Char → List (List Char)
  | [] => [[]]
  | c :: cs =>
    if c = sep then [] :: splitOn sep cs
    else match splitOn sep cs with
      | [] => [[c]]
      | piece :: pieces => (c :: piece) :: pieces

def joinWith (sep : Char) : List (List Char) → List Char
  | [] => []
  | [piece] => piece
  | piece :: pieces => piece ++ sep :: joinWith sep pieces

theorem splitOn_ne_nil (sep : Char) (text : List Char) : splitOn sep text ≠ [] := by
  cases text with
  | nil => simp [splitOn]
  | cons c cs =>
    simp only [splitOn]
    split
    · simp
    · split <;> simp

theorem joinWith_cons (sep : Char) (piece : List Char) {pieces : List (List Char)}
    (h : pieces ≠ []) : joinWith sep (piece :: pieces) = piece ++ sep :: joinWith sep pieces := by
  cases pieces with
  | nil => exact absurd rfl h
  | cons _ _ => rfl

theorem joinWith_splitOn (sep : Char) (text : List Char) :
    joinWith sep (splitOn sep text) = text := by
  induction text with
  | nil => rfl
  | cons c cs ih =>
    simp only [splitOn]
    split
    · next h => rw [joinWith_cons _ _ (splitOn_ne_nil sep cs), ih, h]; rfl
    · cases hs : splitOn sep cs with
      | nil => exact absurd hs (splitOn_ne_nil sep cs)
      | cons piece pieces =>
        rw [hs] at ih
        cases pieces with
        | nil => simpa [joinWith] using ih
        | cons _ _ => simpa [joinWith] using ih

theorem not_mem_of_mem_splitOn {sep : Char} {piece text : List Char} (h : piece ∈ splitOn sep text) :
    sep ∉ piece := by
  induction text generalizing piece with
  | nil =>
    rw [splitOn, List.mem_singleton] at h
    simp [h]
  | cons c cs ih =>
    simp only [splitOn] at h
    split at h
    · rcases List.mem_cons.1 h with rfl | h
      · simp
      · exact ih h
    · next ne =>
      split at h
      · next none => exact absurd none (splitOn_ne_nil sep cs)
      · next first rest split =>
        rcases List.mem_cons.1 h with rfl | h
        · have := ih (split ▸ List.mem_cons_self)
          simp [this, Ne.symm ne]
        · exact ih (split ▸ List.mem_cons_of_mem _ h)

theorem splitOn_append (sep : Char) (text more : List Char) :
    splitOn sep (text ++ sep :: more) = splitOn sep text ++ splitOn sep more := by
  induction text with
  | nil => simp [splitOn]
  | cons c cs ih =>
    simp only [List.cons_append, splitOn, ih]
    split
    · rfl
    · cases h : splitOn sep cs with
      | nil => exact absurd h (splitOn_ne_nil sep cs)
      | cons piece pieces => rfl

theorem splitOn_of_not_mem {sep : Char} {text : List Char} (h : sep ∉ text) :
    splitOn sep text = [text] := by
  induction text with
  | nil => rfl
  | cons c cs ih =>
    rw [List.mem_cons, not_or] at h
    rw [splitOn, if_neg (Ne.symm h.1), ih h.2]

theorem mem_joinWith {sep c : Char} {piece : List Char} {pieces : List (List Char)}
    (h : piece ∈ pieces) (hc : c ∈ piece) : c ∈ joinWith sep pieces := by
  induction pieces with
  | nil => cases h
  | cons first pieces ih =>
    cases pieces with
    | nil =>
      rw [List.mem_singleton] at h
      exact h ▸ hc
    | cons next pieces =>
      rw [joinWith_cons _ _ (List.cons_ne_nil _ _), List.mem_append]
      rcases List.mem_cons.1 h with rfl | h
      · exact .inl hc
      · exact .inr (List.mem_cons_of_mem _ (ih h))

theorem mem_of_mem_splitOn {sep c : Char} {piece text : List Char} (h : piece ∈ splitOn sep text)
    (hc : c ∈ piece) : c ∈ text := by
  rw [← joinWith_splitOn sep text]
  exact mem_joinWith h hc

def segments (path : String) : List String :=
  (splitOn '.' path.toList).map String.ofList

def ofSegments (segments : List String) : String :=
  String.ofList (joinWith '.' (segments.map String.toList))

/-- A line that a line feed ended, without a carriage return before it. -/
def dropReturn (line : List Char) : List Char :=
  if line.getLast? = some '\r' then line.dropLast else line

/-- The lines of a text. What follows the last line feed is a line unless it is empty. -/
def lines (text : List Char) : List (List Char) :=
  let pieces := splitOn '\n' text
  let last := pieces.getLastD []
  pieces.dropLast.map dropReturn ++ (if last = [] then [] else [last])

/-- A comment takes a whole line. -/
def isComment (line : List Char) : Bool :=
  opensWith ['/', '/'] line || opensWith ['#'] line

/-- Comment lines become empty lines, so that every other line keeps its number. -/
def stripCommentsChars (text : List Char) : List Char :=
  joinWith '\n' ((lines text).map fun line => if isComment line then [] else line)

def stripComments (text : String) : String := String.ofList (stripCommentsChars text.toList)

end SettingsSweep.Text

import SettingsSweep.Yaml.Plain

/-!
Flow collections: lists and dictionaries in brackets, which do not care for indentation.
-/

set_option autoImplicit false

namespace SettingsSweep.Yaml

/-- The next line with its text at the start of a token. Comments and line breaks are skipped; the end of
    the document may not come. -/
def flowStart : List Line → Option (Line × List Line)
  | [] => none
  | line :: lines =>
    if line.bounds then none
    else
      let text := skipGap line.text
      if endsLine text then flowStart lines else some ({ line with text := text }, lines)

def flowMark? (mark : Char) (lines : List Line) : Option (List Line) :=
  match flowStart lines with
  | some (line, lines) => match line.text with
    | c :: rest => if c = mark then some (line.rest rest :: lines) else none
    | [] => none
  | none => none

/-- Whether a colon follows here, on the line of the key. A key on several lines is none, and `count` is
    the number of lines from the one where it starts. -/
def colonFollows (count : Nat) : List Line → Bool
  | [] => false
  | line :: lines => lines.length + 1 = count && (skipGap line.text).head? = some ':'

/-- Whether an entry ends here, so that a value that could come is null. -/
def endsEntry (lines : List Line) : Bool :=
  (flowMark? ',' lines).isSome || (flowMark? ']' lines).isSome || (flowMark? '\x7d' lines).isSome

mutual

def flowValue : Nat → List Line → Option (ConfigTree × List Line)
  | 0, _ => none
  | fuel + 1, lines => do
    let (line, lines) ← flowStart lines
    match line.text with
    | '[' :: rest =>
      let (items, lines) ← flowItems fuel (line.rest rest :: lines)
      some (.list items, lines)
    | '\x7b' :: rest =>
      let (entries, lines) ← flowEntries fuel [] (line.rest rest :: lines)
      some (.dict entries, lines)
    | _ =>
      let (leaf, lines) ← leaf? true 0 (line :: lines)
      some (leaf.value, lines)

def flowAfterKey : Nat → List Line → Option (ConfigTree × List Line)
  | 0, _ => none
  | fuel + 1, lines => do
    let lines ← flowMark? ':' lines
    if endsEntry lines then some (.null, lines) else flowValue fuel lines

/-- The items up to the closing bracket. An item with a colon after it is a dictionary of one entry. -/
def flowItems : Nat → List Line → Option (List ConfigTree × List Line)
  | 0, _ => none
  | fuel + 1, lines => do
    match flowMark? ']' lines with
    | some lines => some ([], lines)
    | none =>
      let (start, after) ← flowStart lines
      let (item, lines) ← flowValue fuel lines
      let (item, lines) ←
        if colonFollows (after.length + 1) lines then do
          let (leaf, _) ← leaf? true 0 (start :: after)
          let (value, lines) ← flowAfterKey fuel lines
          some (ConfigTree.dict [(leaf.text, value)], lines)
        else some (item, lines)
      match flowMark? ',' lines with
      | some lines =>
        let (items, lines) ← flowItems fuel lines
        some (item :: items, lines)
      | none =>
        let lines ← flowMark? ']' lines
        some ([item], lines)

/-- The entries up to the closing bracket, put after those of `known`. -/
def flowEntries : Nat → Dict ConfigTree → List Line → Option (Dict ConfigTree × List Line)
  | 0, _, _ => none
  | fuel + 1, known, lines => do
    match flowMark? '\x7d' lines with
    | some lines => some (known, lines)
    | none =>
      let (start, after) ← flowStart lines
      let (key, lines) ←
        if colonFollows (after.length + 1) (start :: after) then some ("", start :: after)
        else do
          let (leaf, lines) ← leaf? true 0 (start :: after)
          some (leaf.text, lines)
      let (value, lines) ←
        if colonFollows (after.length + 1) lines then flowAfterKey fuel lines else some (.null, lines)
      let known := known.put key value
      match flowMark? ',' lines with
      | some lines => flowEntries fuel known lines
      | none =>
        let lines ← flowMark? '\x7d' lines
        some (known, lines)

end

end SettingsSweep.Yaml

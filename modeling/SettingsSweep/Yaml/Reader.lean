import SettingsSweep.Yaml.Flow

/-!
Reading a YAML document with one dictionary. Block collections go by indentation: a mapping or a list starts
at the column of its first entry and ends at the first line that is none of its entries. What no
collection takes makes the document faulty. Tags, anchors and aliases are not read.
-/

set_option autoImplicit false

namespace SettingsSweep.Yaml

def opensWithMark (mark : Char) : List Char → Bool
  | c :: rest => c == mark && atGap rest
  | [] => false

/-- A line after the mark at its start, so that what follows stands at its own column. -/
def Line.afterMark (line : Line) : Line :=
  let text := line.text.tail.dropWhile (· = ' ')
  ⟨line.indent + (line.text.length - text.length), text, line.ending⟩

/-- A longer key is none. -/
def maxKey : Nat := 1024

def keyValue? (text : List Char) : Option (String × List Char) := do
  let (key, after) ←
    match text with
    | [] => none
    | c :: rest =>
      if c = '"' ∨ c = '\'' then
        match quotedLine c rest with
        | some (key, .closed after) => some (key, skipGap after)
        | _ => none
      else if startsPlain false text then
        let (span, after) := plainSpan false false text
        some (dropGapEnd span, after)
      else if c = ':' then some ([], text)
      else none
  match after with
  | ':' :: value =>
    if atGap value ∧ text.length ≤ value.length + 1 + maxKey then some (String.ofList key, value)
    else none
  | _ => none

/-- The lines after a value that ends within a line, where only a comment may follow it. -/
def endInline : List Line → Option (List Line)
  | [] => some []
  | line :: lines => if endsLine (skipGap line.text) then some lines else none

mutual

def inlineValue : Nat → Nat → List Line → Option (ConfigTree × List Line)
  | 0, _, _ => none
  | fuel + 1, least, lines => do
    let (value, lines) ←
      match lines with
      | [] => none
      | line :: _ =>
        if line.text.head? = some '[' ∨ line.text.head? = some '\x7b' then flowValue fuel lines
        else (leaf? false least lines).map fun (leaf, lines) => (leaf.value, lines)
    some (value, ← endInline lines)

/-- A value on lines of its own, which start at column `least` or later. Without any it is null. -/
def blockValue : Nat → Nat → List Line → Option (ConfigTree × List Line)
  | 0, _, _ => none
  | fuel + 1, least, lines =>
    match skipLines lines with
    | [] => some (.null, [])
    | line :: lines =>
      if line.indent < least || line.bounds then some (.null, line :: lines)
      else if opensWithMark '-' line.text then
        (blockItems fuel line.indent (line :: lines)).map fun (items, lines) =>
          (.list items, lines)
      else if opensWithMark '?' line.text || (keyValue? line.text).isSome then
        (blockEntries fuel line.indent [] (line :: lines)).map fun (entries, lines) =>
          (.dict entries, lines)
      else inlineValue fuel least (line :: lines)

/-- The value of an entry of a mapping at column `column`. A list may start at that same column. -/
def entryValue : Nat → Nat → List Line → Option (ConfigTree × List Line)
  | 0, _, _ => none
  | fuel + 1, column, lines =>
    match skipLines lines with
    | line :: lines =>
      if line.indent = column ∧ opensWithMark '-' line.text then
        (blockItems fuel column (line :: lines)).map fun (items, lines) => (.list items, lines)
      else blockValue fuel (column + 1) (line :: lines)
    | [] => some (.null, [])

def blockItems : Nat → Nat → List Line → Option (List ConfigTree × List Line)
  | 0, _, _ => none
  | fuel + 1, column, lines => do
    match skipLines lines with
    | [] => some ([], [])
    | line :: lines =>
      if line.indent = column ∧ opensWithMark '-' line.text then
        let (item, lines) ← blockValue fuel (column + 1) (line.afterMark :: lines)
        let (items, lines) ← blockItems fuel column lines
        some (item :: items, lines)
      else some ([], line :: lines)

/-- The entries of a mapping at column `column`, put after those of `known`. -/
def blockEntries : Nat → Nat → Dict ConfigTree → List Line →
    Option (Dict ConfigTree × List Line)
  | 0, _, _, _ => none
  | fuel + 1, column, known, lines => do
    match skipLines lines with
    | [] => some (known, [])
    | line :: lines =>
      if line.indent ≠ column || line.bounds then some (known, line :: lines)
      else if opensWithMark '?' line.text then
        let (key, lines) ← explicitKey column (line.afterMark :: lines)
        let (value, lines) ←
          match skipLines lines with
          | mark :: lines =>
            if mark.indent = column ∧ opensWithMark ':' mark.text then
              entryValue fuel column (mark.afterMark :: lines)
            else some (.null, mark :: lines)
          | [] => some (.null, [])
        blockEntries fuel column (known.put key value) lines
      else match keyValue? line.text with
        | none => some (known, line :: lines)
        | some (key, rest) =>
          let rest := skipGap rest
          let (value, lines) ←
            if endsLine rest then entryValue fuel column lines
            else inlineValue fuel (column + 1) (line.rest rest :: lines)
          blockEntries fuel column (known.put key value) lines
where
  /-- A key after a question mark. -/
  explicitKey (column : Nat) (lines : List Line) : Option (String × List Line) := do
    match skipLines lines with
    | [] => some ("", [])
    | line :: lines =>
      if line.indent ≤ column then some ("", line :: lines)
      else
        let (leaf, lines) ← leaf? false (column + 1) (line :: lines)
        some (leaf.text, ← endInline lines)

end

/-- Nothing but comments, and at most one end mark. -/
def isOver (lines : List Line) : Bool :=
  match skipLines lines with
  | [] => true
  | line :: lines =>
    line.isMarker '.' && endsLine (skipGap (line.text.drop 3)) && (skipLines lines).isEmpty

/-- The directives of a document may only tell the version of its language. -/
def isVersion (text : List Char) : Bool :=
  match (String.ofList text).splitOn " " |>.filter (· ≠ "") with
  | ["%YAML", version] => version == "1.1" || version == "1.2"
  | _ => false

/-- The lines after the start mark, with what stands beside the mark. -/
def contents? (lines : List Line) : Option (List Line × Bool) :=
  match skipLines lines with
  | [] => some ([], false)
  | line :: lines =>
    let isDirective := line.indent = 0 && line.text.head? = some '%'
    let (line, lines) := if isDirective then
        (match skipLines lines with
          | next :: lines => if isVersion line.text then (next, lines) else (line, lines)
          | [] => (line, []))
      else (line, lines)
    if line.isMarker '-' then
      let text := skipGap (line.text.drop 3)
      if endsLine text then some (lines, false) else some (line.rest text :: lines, true)
    else if isDirective then none
    else some (line :: lines, false)

/-- The dictionary that a text spells; a document without contents is an empty one. -/
def ofText? (text : String) : Option (Dict ConfigTree) := do
  let chars := match text.toList with
    | '\ufeff' :: chars => chars
    | chars => chars
  if !chars.all isAllowed then none
  else
    let (lines, inline) ← contents? (linesOf chars)
    let fuel := 4 * chars.length + 16
    if isOver lines then some []
    else
      let (value, lines) ← if inline then inlineValue fuel 0 lines else blockValue fuel 0 lines
      match value with
      | .dict entries => if isOver lines then some entries else none
      | _ => none

end SettingsSweep.Yaml

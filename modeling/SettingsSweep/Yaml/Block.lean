import SettingsSweep.Yaml.Line

/-!
Block scalars: literal ones, which keep their line breaks, and folded ones.
-/

set_option autoImplicit false

namespace SettingsSweep.Yaml

inductive Chomping
  | strip
  | clip
  | keep
  deriving DecidableEq

structure BlockHeader where
  literal : Bool
  chomping : Chomping := .clip
  /-- The indentation relative to the parent, if it is given. -/
  indent : Option Nat := none

def chomping? (c : Char) : Option Chomping :=
  if c = '-' then some .strip else if c = '+' then some .keep else none

def indentation? (c : Char) : Option Nat :=
  if '1' ≤ c ∧ c ≤ '9' then some (c.toNat - '0'.toNat) else none

/-- The marks after `|` or `>`: how to chomp and how far to indent, in either order. -/
def BlockHeader.marks (header : BlockHeader) : List Char → BlockHeader × List Char
  | [] => (header, [])
  | a :: rest => match chomping? a, indentation? a with
    | some chomping, _ =>
      let header := { header with chomping := chomping }
      match rest with
      | b :: rest' => match indentation? b with
        | some n => ({ header with indent := some n }, rest')
        | none => (header, rest)
      | [] => (header, [])
    | none, some n =>
      let header := { header with indent := some n }
      match rest with
      | b :: rest' => match chomping? b with
        | some chomping => ({ header with chomping := chomping }, rest')
        | none => (header, rest)
      | [] => (header, [])
    | none, none => (header, a :: rest)

/-- The header, if nothing but a comment follows it on its line. -/
def BlockHeader.of? (literal : Bool) (text : List Char) : Option BlockHeader :=
  let (header, rest) := BlockHeader.marks { literal := literal } text
  if endsLine (skipGap rest) then some header else none

/-- The indentation of a scalar without a given one: that of its first line with text, or of a deeper
    empty line before it. -/
def detectIndent (least : Nat) : List Line → Nat
  | [] => least
  | line :: lines =>
    if line.text = [] then detectIndent (max least line.indent) lines
    else max least line.indent

def Line.beyond (indent : Nat) (line : Line) : List Char :=
  List.replicate (line.indent - indent) ' ' ++ line.text

def Line.isInside (indent : Nat) (line : Line) : Bool := line.text = [] || indent ≤ line.indent

/-- Tabs do not indent. -/
def Line.isTabbed (line : Line) : Bool := line.text.head? = some '\t'

def literalText : List (List Char × List Char) → List Char
  | [] => []
  | [(text, _)] => text
  | (text, ending) :: lines => text ++ ending ++ literalText lines

def startsGap (text : List Char) : Bool := (text.head?.map isGap).getD false

/-- The text of folded lines after a line that ended with `ending`; `blanks` holds the breaks of empty
    lines since then. A break between two lines that start with text is folded. -/
def foldedText (gapBefore : Bool) (ending blanks : List Char) :
    List (List Char × List Char) → List Char
  | [] => []
  | (text, next) :: lines =>
    if text = [] then foldedText gapBefore ending (blanks ++ next) lines
    else
      let folds := ending == ['\n'] && !gapBefore && !startsGap text
      let joint := if folds then (if blanks = [] then [' '] else []) else ending
      joint ++ blanks ++ text ++ foldedText (startsGap text) next [] lines

def chomp (chomping : Chomping) (body tail : List (List Char × List Char)) : List Char :=
  let last := (body.getLast?.map Prod.snd).getD []
  match chomping with
  | .strip => []
  | .clip => last
  | .keep => last ++ tail.flatMap Prod.snd

def blockText (header : BlockHeader) (lines : List (List Char × List Char)) : List Char :=
  let tail := (lines.reverse.takeWhile fun line => line.1 = []).reverse
  let body := lines.take (lines.length - tail.length)
  let text := if header.literal then literalText body else foldedText false [] [] body
  text ++ chomp header.chomping body tail

def blockScalar? (header : BlockHeader) (least : Nat) (lines : List Line) :
    Option (List Char × List Line) :=
  let indent := match header.indent with
    | some n => least - 1 + n
    | none => detectIndent (max least 1) lines
  let inside := lines.takeWhile (·.isInside indent)
  let rest := lines.dropWhile (·.isInside indent)
  let tabbed : Bool := match rest with
    | line :: _ => line.isTabbed
    | [] => false
  let tabbedAtStart : Bool := match header.indent, inside.find? (·.text ≠ []) with
    | none, some line => line.isTabbed
    | _, _ => false
  if tabbed || tabbedAtStart then none
  else some (blockText header (inside.map fun line => (line.beyond indent, line.ending)), rest)

end SettingsSweep.Yaml

import SettingsSweep.Yaml.Block
import SettingsSweep.Yaml.Quoted
import SettingsSweep.Yaml.Resolution

/-!
Plain scalars, and scalars of any kind.
-/

set_option autoImplicit false

namespace SettingsSweep.Yaml

def isFlowMark (c : Char) : Bool := c ∈ [',', '[', ']', '\x7b', '\x7d']

def isReserved (c : Char) : Bool :=
  isFlowMark c || c ∈ ['#', '&', '*', '!', '|', '>', '\'', '"', '%', '@', '\x60']

/-- Whether a plain scalar starts here. In a flow collection `?` and `:` never start one. -/
def startsPlain (flow : Bool) : List Char → Bool
  | [] => false
  | c :: rest =>
    if c = '-' then !atGap rest
    else if c = '?' ∨ c = ':' then !flow && !atGap rest
    else !isReserved c && !isGap c

/-- The part of a line that belongs to a plain scalar, with white space at its end. It stops before a
    colon with a gap after it, before a comment and, in a flow collection, before a mark of that. -/
def plainSpan (flow afterGap : Bool) : List Char → List Char × List Char
  | [] => ([], [])
  | c :: rest =>
    let stops := (c == '#' && afterGap) || (c == ':' && atGap rest) || (flow && isFlowMark c)
    if stops then ([], c :: rest)
    else
      let (text, after) := plainSpan flow (isGap c) rest
      (c :: text, after)

/-- In a flow collection a colon may not stand directly before a mark. -/
def hasLostColon : List Char → Bool
  | [] => false
  | [_] => false
  | c :: d :: rest => (c == ':' && (isFlowMark d || d == '?')) || hasLostColon (d :: rest)

/-- A text in a flow collection with the mark that follows it. -/
def losesColon (flow : Bool) (span after : List Char) : Bool :=
  flow && hasLostColon (span ++ after.take 1)

/-- The lines of a plain scalar after its first. They have to start at column `least` or later, unless
    they are in a flow collection. -/
def plainMore (flow : Bool) (least : Nat) (breaks : Breaks) :
    List Line → Option (List Char × List Line)
  | [] => some ([], [.done])
  | line :: lines =>
    let deep := flow || least ≤ line.indent
    let text := skipGap line.text
    if line.text = [] ∨ (text = [] ∧ deep) then plainMore flow least (breaks.add line.ending) lines
    else if !deep || line.bounds then some ([], .done :: line :: lines)
    else
      let (span, after) := plainSpan flow true text
      if losesColon flow span after then none
      else if span = [] then some ([], .done :: line :: lines)
      else
        let here := breaks.fold ++ dropGapEnd span
        match after with
        | [] => do
          let (more, lines) ← plainMore flow least ⟨line.ending, []⟩ lines
          some (here ++ more, lines)
        | _ => some (here, line.rest after :: lines)

def plain? (flow : Bool) (least : Nat) : List Line → Option (List Char × List Line)
  | [] => none
  | line :: lines =>
    let (span, after) := plainSpan flow false line.text
    if losesColon flow span after then none
    else match after with
      | [] => do
        let (more, lines) ← plainMore flow least ⟨line.ending, []⟩ lines
        some (dropGapEnd span ++ more, lines)
      | _ => some (dropGapEnd span, line.rest after :: lines)

/-- A scalar as it is written. Only a plain one can be something else than a text. -/
structure Leaf where
  text : String
  plain : Bool

def Leaf.value (leaf : Leaf) : ConfigTree :=
  if leaf.plain then resolve leaf.text else .text leaf.text

/-- The scalar at the start of the first line. What remains begins with the rest of its last line. -/
def leaf? (flow : Bool) (least : Nat) : List Line → Option (Leaf × List Line)
  | [] => none
  | line :: lines =>
    match line.text with
    | [] => none
    | c :: rest =>
      if c = '"' ∨ c = '\'' then do
        let (text, lines) ← quoted? c (line.rest rest :: lines)
        some (⟨String.ofList text, false⟩, lines)
      else if (c = '|' ∨ c = '>') ∧ !flow then do
        let header ← BlockHeader.of? (c = '|') rest
        let (text, lines) ← blockScalar? header least lines
        some (⟨String.ofList text, false⟩, Line.done :: lines)
      else if startsPlain flow (c :: rest) then do
        let (text, lines) ← plain? flow least (line :: lines)
        some (⟨String.ofList text, true⟩, lines)
      else none

end SettingsSweep.Yaml

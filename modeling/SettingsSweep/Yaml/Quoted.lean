import SettingsSweep.Yaml.Line

/-!
Quoted scalars. In single quotes a quote is written twice; in double quotes a backslash starts an escape.
Both may run over several lines, which then fold.
-/

set_option autoImplicit false

namespace SettingsSweep.Yaml

inductive QuoteEnd
  /-- The closing quote, and what follows it. -/
  | closed (rest : List Char)
  | lineEnd
  /-- A backslash, which takes the line break away. -/
  | escapedEnd

/-- A line of a scalar in single quotes. White space is held back until something follows it. -/
def singleLine (held : List Char) : List Char → List Char × QuoteEnd
  | [] => ([], .lineEnd)
  | '\'' :: '\'' :: rest =>
    let (text, after) := singleLine [] rest
    (held ++ '\'' :: text, after)
  | c :: rest =>
    if c = '\'' then (held, .closed rest)
    else if isGap c then singleLine (held ++ [c]) rest
    else
      let (text, after) := singleLine [] rest
      (held ++ c :: text, after)

def hexValue? (c : Char) : Option Nat :=
  if '0' ≤ c ∧ c ≤ '9' then some (c.toNat - '0'.toNat)
  else if 'a' ≤ c ∧ c ≤ 'f' then some (c.toNat - 'a'.toNat + 10)
  else if 'A' ≤ c ∧ c ≤ 'F' then some (c.toNat - 'A'.toNat + 10)
  else none

def hexChar? (count : Nat) (text : List Char) : Option Char := do
  let digits ← (text.take count).mapM hexValue?
  let n := digits.foldl (fun n d => n * 16 + d) 0
  if digits.length = count ∧ n.isValidChar then some (Char.ofNat n) else none

def namedEscapes : List (Char × Char) :=
  [('0', '\x00'), ('a', '\x07'), ('b', '\x08'), ('t', '\t'), ('\t', '\t'), ('n', '\n'),
    ('v', '\x0b'), ('f', '\x0c'), ('r', '\r'), ('e', '\x1b'), (' ', ' '), ('"', '"'), ('/', '/'),
    ('\\', '\\'), ('N', '\u0085'), ('_', '\u00a0'), ('L', '\u2028'), ('P', '\u2029')]

/-- The character that an escape stands for, and the number of characters after its letter. -/
def escape? (letter : Char) (rest : List Char) : Option (Char × Nat) :=
  let coded (count : Nat) : Option (Char × Nat) := (hexChar? count rest).map fun c => (c, count)
  match letter with
  | 'x' => coded 2
  | 'u' => coded 4
  | 'U' => coded 8
  | _ => (namedEscapes.lookup letter).map fun c => (c, 0)

/-- A line of a scalar in double quotes, after its first `skip` characters. -/
def doubleLine (held : List Char) : Nat → List Char → Option (List Char × QuoteEnd)
  | _, [] => some ([], .lineEnd)
  | skip + 1, _ :: rest => doubleLine held skip rest
  | 0, '\\' :: rest => match rest with
    | [] => some (held, .escapedEnd)
    | letter :: rest' => do
      let (c, count) ← escape? letter rest'
      let (text, after) ← doubleLine [] (count + 1) rest
      some (held ++ c :: text, after)
  | 0, c :: rest =>
    if c = '"' then some (held, .closed rest)
    else if isGap c then doubleLine (held ++ [c]) 0 rest
    else do
      let (text, after) ← doubleLine [] 0 rest
      some (held ++ c :: text, after)

def quotedLine (quote : Char) (text : List Char) : Option (List Char × QuoteEnd) :=
  if quote = '"' then doubleLine [] 0 text else some (singleLine [] text)

/-- The lines of a quoted scalar after its first; what remains starts after the closing quote. -/
def quotedMore (quote : Char) (breaks : Breaks) : List Line → Option (List Char × List Line)
  | [] => none
  | line :: lines =>
    if line.bounds then none
    else match skipGap line.text with
      | [] => quotedMore quote (breaks.add line.ending) lines
      | text => do
        let (start, after) ← quotedLine quote text
        match after with
        | .closed rest => some (breaks.fold ++ start, line.rest rest :: lines)
        | .lineEnd =>
          let (more, lines) ← quotedMore quote ⟨line.ending, []⟩ lines
          some (breaks.fold ++ start ++ more, lines)
        | .escapedEnd =>
          let (more, lines) ← quotedMore quote {} lines
          some (breaks.fold ++ start ++ more, lines)

def quoted? (quote : Char) : List Line → Option (List Char × List Line)
  | [] => none
  | line :: lines => do
    let (start, after) ← quotedLine quote line.text
    match after with
    | .closed rest => some (start, line.rest rest :: lines)
    | .lineEnd =>
      let (more, lines) ← quotedMore quote ⟨line.ending, []⟩ lines
      some (start ++ more, lines)
    | .escapedEnd =>
      let (more, lines) ← quotedMore quote {} lines
      some (start ++ more, lines)

end SettingsSweep.Yaml

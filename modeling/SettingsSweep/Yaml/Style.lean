import SettingsSweep.Yaml.Plain

/-!
How a text is written as a scalar: plain where it reads back as itself, and else in the lightest quotes that
can hold it. A text with line feeds becomes a literal block.
-/

set_option autoImplicit false

namespace SettingsSweep.Yaml

inductive Style
  | plain
  | single
  | double
  | literal
  deriving DecidableEq

/-- What is written as it is. Characters beyond the basic plane are escaped. -/
def isPrintable (c : Char) : Bool :=
  let n := c.toNat
  n == 0x0A || (0x20 ≤ n && n ≤ 0x7E) || (0xA0 ≤ n && n ≤ 0xFFFD && n ≠ 0xFEFF)

/-- Whether two characters that follow each other somewhere satisfy a relation. -/
def anyPair (p : Char → Char → Bool) : List Char → Bool
  | a :: b :: rest => p a b || anyPair p (b :: rest)
  | _ => false

def hasSpaceBreak (text : List Char) : Bool := anyPair (fun a b => a == ' ' && isBreak b) text

def hasBreakSpace (text : List Char) : Bool := anyPair (fun a b => isBreak a && b == ' ') text

/-- `: ` or ` #` inside, or a colon at the end. -/
def hasIndicator : List Char → Bool
  | [] => false
  | c :: rest =>
    (c == ':' && atGap rest) ||
      ((isGap c || isBreak c) && rest.head? == some '#') || hasIndicator rest

def opensWithThree (mark : Char) : List Char → Bool
  | a :: b :: c :: _ => a == mark && b == mark && c == mark
  | _ => false

def isSpaceOrBreak (c : Char) : Bool := c == ' ' || isBreak c

def fitsPlain (text : List Char) : Bool :=
  startsPlain false text && text.all (fun c => isPrintable c && !isBreak c) &&
    !(text.getLast?.map isSpaceOrBreak).getD true && !hasIndicator text &&
    !opensWithThree '-' text && !opensWithThree '.' text

def fitsSingle (text : List Char) : Bool :=
  text.all isPrintable && !hasSpaceBreak text && !hasBreakSpace text

def fitsLiteral (text : List Char) : Bool :=
  text.all isPrintable && !hasSpaceBreak text && text.getLast? ≠ some ' '

def Style.of (text : String) : Style :=
  let chars := text.toList
  if '\n' ∈ chars then (if fitsLiteral chars then .literal else .double)
  else if !needsQuotes text && fitsPlain chars then .plain
  else if fitsSingle chars then .single
  else .double

def hexDigit (n : Nat) : Char :=
  if n < 10 then Char.ofNat ('0'.toNat + n) else Char.ofNat ('A'.toNat + (n - 10))

def hexDigits (count n : Nat) : List Char :=
  (List.range count).map fun i => hexDigit (n / Nat.pow 16 (count - 1 - i) % 16)

def escapeLetter? (c : Char) : Option Char :=
  ([('\x00', '0'), ('\x07', 'a'), ('\x08', 'b'), ('\t', 't'), ('\n', 'n'), ('\x0b', 'v'),
    ('\x0c', 'f'), ('\r', 'r'), ('\x1b', 'e'), ('"', '"'), ('\\', '\\'), ('\u0085', 'N'),
    ('\u00a0', '_'), ('\u2028', 'L'), ('\u2029', 'P')] : List (Char × Char)).lookup c

def escaped (c : Char) : List Char :=
  match escapeLetter? c with
  | some letter => ['\\', letter]
  | none =>
    let n := c.toNat
    if n ≤ 0xFF then '\\' :: 'x' :: hexDigits 2 n
    else if n ≤ 0xFFFF then '\\' :: 'u' :: hexDigits 4 n
    else '\\' :: 'U' :: hexDigits 8 n

def doubleQuoted (text : List Char) : List Char :=
  let body := text.flatMap fun c =>
    if !isPrintable c || isBreak c || c == '"' || c == '\\' then escaped c else [c]
  '"' :: body ++ ['"']

def spaces (count : Nat) : List Char := List.replicate count ' '

/-- The rest of a scalar in single quotes. After a break the line is indented. -/
def singleFrom (indent : Nat) (afterBreak : Bool) : List Char → List Char
  | [] => (if afterBreak then spaces indent else []) ++ ['\'']
  | c :: rest =>
    if isBreak c then c :: singleFrom indent true rest
    else
      (if afterBreak then spaces indent else []) ++
        (if c = '\'' then ['\'', '\''] else [c]) ++ singleFrom indent false rest

def singleQuoted (indent : Nat) (text : List Char) : List Char := '\'' :: singleFrom indent false text

/-- The lines of a literal block, each with its indentation unless it is empty. -/
def literalFrom (indent : Nat) (afterBreak : Bool) : List Char → List Char
  | [] => []
  | c :: rest =>
    if isBreak c then c :: literalFrom indent true rest
    else (if afterBreak then spaces indent else []) ++ c :: literalFrom indent false rest

/-- Says how many line breaks end a literal block: none, one, or all that are there. -/
def chompMark (text : List Char) : List Char :=
  match text.reverse with
  | [] => ['-']
  | [c] => if isBreak c then ['+'] else ['-']
  | c :: d :: _ => if !isBreak c then ['-'] else if isBreak d then ['+'] else []

/-- A text that starts with white space has its indentation told. -/
def literalHeader (text : List Char) : List Char :=
  '|' :: (if (text.head?.map isSpaceOrBreak).getD false then ['2'] else []) ++ chompMark text

def literalBlock (indent : Nat) (text : List Char) : List Char :=
  literalHeader text ++ '\n' :: literalFrom indent true text ++
    (if (text.getLast?.map isBreak).getD true then [] else ['\n'])

/-- A text as a scalar, up to and with the end of its line. Further lines are indented by `indent`. -/
def writtenText (indent : Nat) (text : String) : List Char :=
  let chars := text.toList
  match Style.of text with
  | .plain => chars ++ ['\n']
  | .single => singleQuoted indent chars ++ ['\n']
  | .double => doubleQuoted chars ++ ['\n']
  | .literal => literalBlock indent chars

end SettingsSweep.Yaml

/-!
YAML text as lines. A line keeps the number of spaces before its text and the break that ends it, because
both can matter inside of a scalar.
-/

set_option autoImplicit false

namespace SettingsSweep.Yaml

/-- Breaks that stay what they are, where other breaks become line feeds. -/
def isKeptBreak (c : Char) : Bool := c == '\u2028' || c == '\u2029'

def isBreak (c : Char) : Bool := c == '\n' || c == '\r' || c == '\u0085' || isKeptBreak c

def isGap (c : Char) : Bool := c == ' ' || c == '\t'

def atGap : List Char → Bool
  | [] => true
  | c :: _ => isGap c || isBreak c

def skipGap (text : List Char) : List Char := text.dropWhile isGap

def dropGapEnd (text : List Char) : List Char := (text.reverse.dropWhile isGap).reverse

def isAllowed (c : Char) : Bool :=
  let n := c.toNat
  n == 0x09 || n == 0x0A || n == 0x0D || (0x20 ≤ n && n ≤ 0x7E) || n == 0x85 ||
    (0xA0 ≤ n && n ≤ 0xD7FF) || (0xE000 ≤ n && n ≤ 0xFFFD) || 0x10000 ≤ n

structure Line where
  indent : Nat
  text : List Char
  ending : List Char

def Line.of (chars ending : List Char) : Line :=
  let text := chars.dropWhile (· = ' ')
  ⟨chars.length - text.length, text, ending⟩

def Line.rest (line : Line) (text : List Char) : Line :=
  { line with indent := line.indent + 1, text := text }

def Line.done : Line := ⟨1, [], []⟩

def endsLine : List Char → Bool
  | [] => true
  | c :: _ => c == '#'

/-- `---` or `...` at the start of a line. -/
def Line.isMarker (marker : Char) (line : Line) : Bool :=
  match line.indent, line.text with
  | 0, a :: b :: c :: rest => a == marker && b == marker && c == marker && atGap rest
  | _, _ => false

def Line.bounds (line : Line) : Bool := line.isMarker '-' || line.isMarker '.'

/-- The lines of a text, where `chars` holds the characters of the current line in reverse. -/
def linesFrom (chars : List Char) : List Char → List Line
  | [] => if chars = [] then [] else [Line.of chars.reverse []]
  | '\r' :: '\n' :: rest => Line.of chars.reverse ['\n'] :: linesFrom [] rest
  | c :: rest =>
    if isKeptBreak c then Line.of chars.reverse [c] :: linesFrom [] rest
    else if isBreak c then Line.of chars.reverse ['\n'] :: linesFrom [] rest
    else linesFrom (c :: chars) rest

def linesOf (text : List Char) : List Line := linesFrom [] text

/-- The lines from the first that is neither empty nor a comment. -/
def skipLines : List Line → List Line
  | [] => []
  | line :: lines => if endsLine line.text then skipLines lines else line :: lines

/-- The breaks between two lines of a flowing scalar: the first break, and those of the empty lines
    after it. -/
structure Breaks where
  first : List Char := []
  more : List Char := []

/-- A single line feed becomes a space; before further breaks it is dropped. -/
def Breaks.fold (breaks : Breaks) : List Char :=
  if breaks.first = ['\n'] then
    if breaks.more = [] then [' '] else breaks.more
  else breaks.first ++ breaks.more

def Breaks.add (breaks : Breaks) (ending : List Char) : Breaks :=
  { breaks with more := breaks.more ++ ending }

end SettingsSweep.Yaml

/-!
Why a text is not JSON, and where reading stopped.
-/

set_option autoImplicit false

namespace SettingsSweep.Json

inductive Fault.Cause
  | endInList
  | endInObject
  | endInString
  | endInValue
  | expectedColon
  | expectedCommaOrListEnd
  | expectedCommaOrObjectEnd
  | expectedWord
  | expectedValue
  | invalidEscape
  | invalidNumber
  | numberOutOfRange
  | controlCharacter
  | keyNotString
  | loneSurrogate
  | trailingComma
  | trailingCharacters
  | unfinishedSurrogate
  | tooDeep
  /-- The text is JSON so far, but not a value of the wanted shape. -/
  | unwantedShape
  deriving DecidableEq

/-- Reading stopped `reach` bytes into what was left of the text. -/
structure Fault where
  cause : Fault.Cause
  left : List Char
  reach : Nat

inductive Category
  | syntaxError
  | endOfText
  | data
  deriving DecidableEq

namespace Fault

def Cause.category : Cause → Category
  | .endInList | .endInObject | .endInString | .endInValue => .endOfText
  | .unwantedShape => .data
  | _ => .syntaxError

def Cause.text : Cause → String
  | .endInList => "EOF while parsing a list"
  | .endInObject => "EOF while parsing an object"
  | .endInString => "EOF while parsing a string"
  | .endInValue => "EOF while parsing a value"
  | .expectedColon => "expected `:`"
  | .expectedCommaOrListEnd => "expected `,` or `]`"
  | .expectedCommaOrObjectEnd => "expected `,` or `\x7d`"
  | .expectedWord => "expected ident"
  | .expectedValue => "expected value"
  | .invalidEscape => "invalid escape"
  | .invalidNumber => "invalid number"
  | .numberOutOfRange => "number out of range"
  | .controlCharacter => "control character (\\u0000-\\u001F) found while parsing a string"
  | .keyNotString => "key must be a string"
  | .loneSurrogate => "lone leading surrogate in hex escape"
  | .trailingComma => "trailing comma"
  | .trailingCharacters => "trailing characters"
  | .unfinishedSurrogate => "unexpected end of hex escape"
  | .tooDeep => "recursion limit exceeded"
  | .unwantedShape => "value of another shape expected"

def byteLength (text : List Char) : Nat := text.foldr (fun c n => c.utf8Size + n) 0

/-- Line and column after a number of bytes: lines count from one, columns count bytes. -/
def positionAt (line column : Nat) : Nat → List Char → Nat × Nat
  | 0, _ => (line, column)
  | _, [] => (line, column)
  | bytes, c :: cs =>
    if bytes < c.utf8Size then (line, column + bytes)
    else if c = '\n' then positionAt (line + 1) 0 (bytes - c.utf8Size) cs
    else positionAt line (column + c.utf8Size) (bytes - c.utf8Size) cs

/-- Where reading `text` stopped; never beyond its end. -/
def position (fault : Fault) (text : List Char) : Nat × Nat :=
  let left := byteLength fault.left
  positionAt 1 0 (byteLength text - left + min fault.reach left) text

def message (fault : Fault) (text : List Char) : String :=
  let (line, column) := fault.position text
  fault.cause.text ++ " at line " ++ toString line ++ " column " ++ toString column

end Fault

end SettingsSweep.Json

import SettingsSweep.Json.Reader
import SettingsSweep.Json.Printer
import SettingsSweep.Text.Blank

/-!
Scalar values: what an axis sweeps over. A token is read as a boolean, a finite number or text.
-/

set_option autoImplicit false

namespace SettingsSweep

/-- The number `1` and the text `1` are different values. -/
inductive Scalar
  | number (x : Binary64)
  | bool (b : Bool)
  | text (s : String)
  deriving DecidableEq

namespace Scalar

def finite? (token : String) : Option Binary64 :=
  (Binary64.ofText? (Text.trimChars token.toList)).filter Binary64.isFinite

/-- Booleans in any case, finite numbers, and all else as trimmed text. -/
def classify (token : String) : Scalar :=
  let token := Text.trim token
  if Text.lower token = "true" then .bool true
  else if Text.lower token = "false" then .bool false
  else match finite? token with
    | some x => .number x
    | none => .text token

def toJson : Scalar → Json
  | .number x => .ofNumber x
  | .bool b => .bool b
  | .text s => .str s

def ofJson? : Json → Option Scalar
  | .bool b => some (.bool b)
  | .int n => some (.number (.ofInt n))
  | .real x => some (.number x)
  | .str s => some (.text s)
  | _ => none

/-- The plain text of a value; `-0` reads `0`. -/
def display : Scalar → String
  | .number x => if x.isZero then "0" else String.ofList x.toPlain
  | .bool b => Json.ofBool b
  | .text s => s

def text? : Scalar → Option String
  | .text s => some s
  | _ => none

/-- Equality of values: `-0` equals `0`, and NaN equals nothing. -/
def same : Scalar → Scalar → Bool
  | .number x, .number y => x.same y
  | .bool a, .bool b => a == b
  | .text s, .text t => s == t
  | _, _ => false

/-- The value under which equal values are found again: zeros lose their sign. -/
def key : Scalar → Scalar
  | .number x => if x.isZero then .number (.zero false) else .number x
  | v => v

def read (lexemes : List Json.Lexeme) : Except Json.Fault Scalar := do
  let (value, rest) ← Json.readValue lexemes
  match ofJson? value with
  | some v => Json.atEnd rest; .ok v
  | none => .error ⟨.unwantedShape, [], 0⟩

end Scalar

end SettingsSweep

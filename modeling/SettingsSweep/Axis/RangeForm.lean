import SettingsSweep.Number.Decimal
import SettingsSweep.Text.Blank
import SettingsSweep.Text.Digit

/-!
The written forms of a range: two bounds with a minus between them, and after that a step in round
brackets, a count in square brackets, or nothing.
-/

set_option autoImplicit false

namespace SettingsSweep

/-- A numeral as it is written: digits of any script with at most one point, and perhaps a minus. -/
abbrev Numeral := List Char

namespace Numeral

/-- Splits off digits with at most one point; a digit must stand on one side of it. -/
def unsigned? (text : List Char) : Option (Numeral × List Char) :=
  let whole := text.takeWhile Text.isDigit
  match text.dropWhile Text.isDigit with
  | '.' :: rest =>
    let fraction := rest.takeWhile Text.isDigit
    if whole = [] ∧ fraction = [] then none
    else some (whole ++ '.' :: fraction, rest.dropWhile Text.isDigit)
  | rest => if whole = [] then none else some (whole, rest)

def signed? : List Char → Option (Numeral × List Char)
  | '-' :: rest => (unsigned? rest).map fun (numeral, rest) => ('-' :: numeral, rest)
  | text => unsigned? text

/-- The number that a numeral spells. Only ASCII digits count; with others it is zero. -/
def value (numeral : Numeral) : Binary64 := (Binary64.ofText? numeral).getD (.zero false)

def isInteger (numeral : Numeral) : Bool := '.' ∉ numeral

/-- The integer of 64 bits that a numeral spells, if its digits are ASCII digits. -/
def int64? (numeral : Numeral) : Option Int :=
  let (negative, digits) := Decimal.splitSign numeral
  if digits.all Char.isDigit then
    let n := Decimal.natOfDigits digits
    if negative then (if n ≤ Nat.pow 2 63 then some (-(n : Int)) else none)
    else if n < Nat.pow 2 63 then some n else none
  else none

/-- The count that digits spell, if they are ASCII digits and it fits 64 bits. -/
def count? (digits : Numeral) : Option Nat :=
  if digits.all Char.isDigit then
    let n := Decimal.natOfDigits digits
    if n < Nat.pow 2 64 then some n else none
  else none

end Numeral

inductive RangeForm
  | stepped (start stop : Numeral) (down : Bool) (step : Numeral)
  /-- Something in round brackets that is no step. -/
  | badStep
  | counted (start stop count : Numeral)
  | integers (start stop : Numeral)
  /-- Bounds alone, one of them with a point. -/
  | decimals
  deriving DecidableEq

namespace RangeForm

def bounds? (text : List Char) : Option (Numeral × Numeral × List Char) := do
  let (start, rest) ← Numeral.signed? text
  match Text.skipBlank rest with
  | '-' :: rest =>
    let (stop, rest) ← Numeral.signed? (Text.skipBlank rest)
    some (start, stop, rest)
  | _ => none

/-- A step up to its closing bracket: a plus may stand before the minus of a step. -/
def step? (text : List Char) : Option (Bool × Numeral) :=
  let text := Text.skipBlank text
  let text := match text with
    | '+' :: rest => Text.skipBlank rest
    | _ => text
  let (down, text) := match text with
    | '-' :: rest => (true, Text.skipBlank rest)
    | _ => (false, text)
  match Numeral.unsigned? text with
  | none => none
  | some (step, rest) => if Text.skipBlank rest = [')'] then some (down, step) else none

/-- Any text without a line feed up to a bracket that ends the whole. -/
def closes (text : List Char) : Bool :=
  text.getLast? = some ')' && '\n' ∉ text.dropLast

def count? (text : List Char) : Option Numeral :=
  let text := Text.skipBlank text
  let digits := text.takeWhile Text.isDigit
  if digits ≠ [] ∧ Text.skipBlank (text.dropWhile Text.isDigit) = [']'] then some digits else none

/-- The form of a text without blanks at its ends, if it is a range. -/
def ofText? (text : List Char) : Option RangeForm := do
  let (start, stop, rest) ← bounds? text
  if rest = [] then
    some (if start.isInteger && stop.isInteger then .integers start stop else .decimals)
  else
    match Text.skipBlank rest with
    | '(' :: inner =>
      match step? inner with
      | some (down, step) => some (.stepped start stop down step)
      | none => if closes inner then some .badStep else none
    | '[' :: inner => (count? inner).map (.counted start stop)
    | _ => none

end RangeForm

end SettingsSweep

import SettingsSweep.Config.Tree
import SettingsSweep.Number.Decimal

/-!
What a plain scalar means: null, a truth value, a number, or else the text that it is.
-/

set_option autoImplicit false

namespace SettingsSweep.Yaml

def isNull (text : String) : Bool := text ∈ ["", "~", "null", "Null", "NULL"]

def bool? (text : String) : Option Bool :=
  if text ∈ ["true", "True", "TRUE"] then some true
  else if text ∈ ["false", "False", "FALSE"] then some false
  else none

def digitValue (c : Char) : Nat :=
  if c.isDigit then c.toNat - '0'.toNat
  else if 'a' ≤ c ∧ c ≤ 'z' then c.toNat - 'a'.toNat + 10
  else if 'A' ≤ c ∧ c ≤ 'Z' then c.toNat - 'A'.toNat + 10
  else 36

def natOfBase? (base : Nat) (text : List Char) : Option Nat :=
  if text ≠ [] ∧ text.all (fun c => digitValue c < base) then
    some (text.foldl (fun n c => n * base + digitValue c) 0)
  else none

/-- A numeral with a mark for its base has to fit in 128 bits; a negative one in 127 and a sign. -/
def isBased (negative : Bool) (text : List Char) : Bool :=
  let fits (base : Nat) (digits : List Char) : Bool :=
    match natOfBase? base digits with
    | some n => if negative then n ≤ Nat.pow 2 127 else n < Nat.pow 2 128
    | none => false
  match text with
  | '0' :: 'x' :: digits => fits 16 digits
  | '0' :: 'o' :: digits => fits 8 digits
  | '0' :: 'b' :: digits => fits 2 digits
  | _ => false

/-- Digits after a leading zero make a text of a numeral. -/
def isPaddedNumeral (text : List Char) : Bool :=
  match (Decimal.splitSign text).2 with
  | '0' :: d :: digits => (d :: digits).all Char.isDigit
  | _ => false

def isNamedNumber (text : List Char) : Bool :=
  let inf := [".inf", ".Inf", ".INF"]
  let nan := [".nan", ".NaN", ".NAN"]
  String.ofList (Decimal.splitSign text).2 ∈ inf || String.ofList text ∈ nan

def isFinite? : Option Binary64 → Bool
  | some x => x.isFinite
  | none => false

def isNumber (text : List Char) : Bool :=
  let based := match text with
    | '-' :: rest => isBased true rest
    | '+' :: rest => isBased false rest
    | rest => isBased false rest
  let decimal := match text with
    | '+' :: rest => (Decimal.splitSign rest).2 == rest && isFinite? (Binary64.ofText? rest)
    | rest => isFinite? (Binary64.ofText? rest)
  based || (!isPaddedNumeral text && (isNamedNumber text || decimal))

def resolve (text : String) : ConfigTree :=
  if isNull text then .null
  else match bool? text with
    | some b => .bool b
    | none => if isNumber text.toList then .number text else .text text

/-- Whether a text would not be read as itself without quotes. -/
def needsQuotes (text : String) : Bool :=
  isNull text || (bool? text).isSome || isNumber text.toList || isPaddedNumeral text.toList

theorem resolve_of_not_needsQuotes {text : String} (h : needsQuotes text = false) :
    resolve text = .text text := by
  simp only [needsQuotes, Bool.or_eq_false_iff] at h
  obtain ⟨⟨⟨hn, hb⟩, hnum⟩, -⟩ := h
  have hb' : bool? text = none := by simpa using hb
  simp [resolve, hn, hb', hnum]

end SettingsSweep.Yaml

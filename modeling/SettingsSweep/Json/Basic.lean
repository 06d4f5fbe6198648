import SettingsSweep.Dict
import SettingsSweep.Number.Decimal

/-!
JSON values. Members keep the order of their first appearance.
-/

set_option autoImplicit false

namespace SettingsSweep

inductive Json
  | null
  | bool (b : Bool)
  | int (n : Int)
  | real (x : Binary64)
  | str (s : String)
  | arr (items : List Json)
  | obj (members : List (String × Json))

instance : Inhabited Json := ⟨.null⟩

abbrev Document := Dict Json

namespace Json

/-- Integers are written as such up to this magnitude, beyond which not every integer is a number. -/
def maxSafeInteger : Nat := 9007199254740991

/-- A number without a fraction becomes an integer where that is exact, so `-0` becomes `0`. -/
def ofNumber (x : Binary64) : Json :=
  match x.toInt? with
  | some n => if n.natAbs ≤ maxSafeInteger then .int n else .real x
  | none => if x.isFinite then .real x else .null

def object? : Json → Option Document
  | .obj members => some members
  | _ => none

def describe : Json → String
  | .null => "null"
  | .bool _ => "a boolean"
  | .int _ | .real _ => "a number"
  | .str _ => "a string"
  | .arr _ => "an array"
  | .obj _ => "an object"

mutual

def UniqueKeys : Json → Prop
  | .arr items => UniqueKeysItems items
  | .obj members => (members.map Prod.fst).Nodup ∧ UniqueKeysMembers members
  | _ => True

def UniqueKeysItems : List Json → Prop
  | [] => True
  | item :: items => UniqueKeys item ∧ UniqueKeysItems items

def UniqueKeysMembers : List (String × Json) → Prop
  | [] => True
  | (_, value) :: members => UniqueKeys value ∧ UniqueKeysMembers members

end

end Json

end SettingsSweep

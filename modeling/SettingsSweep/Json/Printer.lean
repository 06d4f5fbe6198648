import SettingsSweep.Json.Basic

/-!
The two written forms of a JSON value: compact, on one line without blanks, and pretty, with one
item or member a line and two spaces for each level.
-/

set_option autoImplicit false

namespace SettingsSweep.Json

def hexDigit (n : Nat) : Char := (Nat.toDigits 16 n).headD '0'

/-- Quotes, backslashes and control characters are escaped; all else stands for itself. -/
def escapeChar (c : Char) : List Char :=
  if c = '"' then ['\\', '"']
  else if c = '\\' then ['\\', '\\']
  else if c = '\x08' then ['\\', 'b']
  else if c = '\x0c' then ['\\', 'f']
  else if c = '\n' then ['\\', 'n']
  else if c = '\r' then ['\\', 'r']
  else if c = '\t' then ['\\', 't']
  else if c.toNat < 0x20 then
    ['\\', 'u', '0', '0', hexDigit (c.toNat / 16), hexDigit (c.toNat % 16)]
  else [c]

def quote (s : String) : String :=
  String.ofList ('"' :: (s.toList.flatMap escapeChar ++ ['"']))

def ofBool (b : Bool) : String := if b then "true" else "false"

mutual

def compact : Json → String
  | .null => "null"
  | .bool b => ofBool b
  | .int n => toString n
  | .real x => String.ofList x.toDocumentText
  | .str s => quote s
  | .arr items => "[" ++ compactItems items ++ "]"
  | .obj members => "\x7b" ++ compactMembers members ++ "\x7d"

def compactItems : List Json → String
  | [] => ""
  | [item] => compact item
  | item :: items => compact item ++ "," ++ compactItems items

def compactMembers : List (String × Json) → String
  | [] => ""
  | [(key, value)] => quote key ++ ":" ++ compact value
  | (key, value) :: members =>
    quote key ++ ":" ++ compact value ++ "," ++ compactMembers members

end

def indent (level : Nat) : String := String.ofList (List.replicate (2 * level) ' ')

mutual

def prettyAt (level : Nat) : Json → String
  | .null => "null"
  | .bool b => ofBool b
  | .int n => toString n
  | .real x => String.ofList x.toDocumentText
  | .str s => quote s
  | .arr [] => "[]"
  | .arr items => "[\n" ++ prettyItems (level + 1) items ++ indent level ++ "]"
  | .obj [] => "\x7b\x7d"
  | .obj members => "\x7b\n" ++ prettyMembers (level + 1) members ++ indent level ++ "\x7d"

def prettyItems (level : Nat) : List Json → String
  | [] => ""
  | [item] => indent level ++ prettyAt level item ++ "\n"
  | item :: items => indent level ++ prettyAt level item ++ ",\n" ++ prettyItems level items

def prettyMembers (level : Nat) : List (String × Json) → String
  | [] => ""
  | [(key, value)] => indent level ++ quote key ++ ": " ++ prettyAt level value ++ "\n"
  | (key, value) :: members =>
    indent level ++ quote key ++ ": " ++ prettyAt level value ++ ",\n" ++
      prettyMembers level members

end

def pretty (v : Json) : String := prettyAt 0 v

end SettingsSweep.Json

import SettingsSweep.Yaml.Style

/-!
Writing a dictionary as a YAML document, in block style with two spaces a level. Lists start at the column of
their key.
-/

set_option autoImplicit false

namespace SettingsSweep.Yaml

/-- A key stands before its colon if it is on one line and not too long. -/
def isSimpleKey (key : String) : Bool := key.utf8ByteSize ≤ 128 && !key.toList.any isBreak

def writtenKey (key : String) : List Char :=
  match Style.of key with
  | .plain => key.toList
  | .single => singleQuoted 0 key.toList
  | _ => doubleQuoted key.toList

def boolText (b : Bool) : List Char := (if b then "true" else "false").toList

mutual

def writtenItems (column : Nat) : List ConfigTree → List Char
  | [] => []
  | item :: items =>
    spaces column ++ '-' :: ' ' :: besideMark (column + 2) item ++ writtenItems column items

def writtenEntries (column : Nat) : List (String × ConfigTree) → List Char
  | [] => []
  | (key, value) :: entries =>
    let entry := if isSimpleKey key then writtenKey key ++ ':' :: afterKey column value
      else '?' :: ' ' :: writtenText (column + 2) key ++ spaces column ++
        ':' :: ' ' :: besideMark (column + 2) value
    spaces column ++ entry ++ writtenEntries column entries

/-- A value after a mark and a space. Its first line stands beside the mark. -/
def besideMark (column : Nat) : ConfigTree → List Char
  | .null => "null\n".toList
  | .bool b => boolText b ++ ['\n']
  | .number spelling => spelling.toList ++ ['\n']
  | .text s => writtenText column s
  | .list [] => "[]\n".toList
  | .list (item :: items) => (writtenItems column (item :: items)).drop column
  | .dict [] => "\x7b\x7d\n".toList
  | .dict (entry :: entries) => (writtenEntries column (entry :: entries)).drop column

def afterKey (column : Nat) : ConfigTree → List Char
  | .null => " null\n".toList
  | .bool b => ' ' :: boolText b ++ ['\n']
  | .number spelling => ' ' :: spelling.toList ++ ['\n']
  | .text s => ' ' :: writtenText (column + 2) s
  | .list [] => " []\n".toList
  | .list (item :: items) => '\n' :: writtenItems column (item :: items)
  | .dict [] => " \x7b\x7d\n".toList
  | .dict (entry :: entries) => '\n' :: writtenEntries (column + 2) (entry :: entries)

end

def toText (entries : Dict ConfigTree) : String :=
  match entries with
  | [] => "\x7b\x7d\n"
  | _ => String.ofList (writtenEntries 0 entries)

end SettingsSweep.Yaml

import SettingsSweep.Document.Path

/-!
Merging one document into another: objects are merged member by member, and any other value takes the
place of what was there. A key with dots is a path unless both sides hold an object under it.
-/

set_option autoImplicit false

namespace SettingsSweep.Document

def isPath (key : String) : Bool := '.' ∈ key.toList

def write (key : String) (value : Json) (doc : Document) : Document × List Warning :=
  if isPath key then doc.setPath key value else (doc.put key value, [])

mutual

def merge (doc : Document) : List (String × Json) → Document × List Warning
  | [] => (doc, [])
  | (key, value) :: overrides =>
    let (doc, warnings) := mergeMember doc key value
    let (doc, more) := merge doc overrides
    (doc, warnings ++ more)

def mergeMember (doc : Document) (key : String) : Json → Document × List Warning
  | .obj incoming =>
    match doc.find? key with
    | some (.obj existing) =>
      let (merged, warnings) := merge existing incoming
      (doc.put key (.obj merged), warnings)
    | _ => doc.write key (.obj incoming)
  | value => doc.write key value

end

end SettingsSweep.Document

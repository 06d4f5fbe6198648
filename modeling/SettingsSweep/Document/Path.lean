import SettingsSweep.Text.Lines
import SettingsSweep.Warning

/-!
Reading and writing a document at a dotted path. A value in the way that is no object is replaced by one.
-/

set_option autoImplicit false

namespace SettingsSweep.Document

def getAt? : List String → Document → Option Json
  | [], _ => none
  | [key], doc => doc.find? key
  | key :: keys, doc =>
    match doc.find? key with
    | some (.obj members) => getAt? keys members
    | _ => none

def get? (path : String) (doc : Document) : Option Json := getAt? (Text.segments path) doc

def objectAt (key : String) (doc : Document) : Document :=
  match doc.find? key with
  | some (.obj members) => members
  | _ => []

/-- Sets the value at the keys that are left of a path. An object on the way is kept; any other value there is
    replaced by an empty object and reported with the part of the path that leads to it. -/
def setFrom (path : String) : List String → List String → Json → Document → Document × List Warning
  | _, [], _, doc => (doc, [])
  | _, [key], value, doc => (doc.put key value, [])
  | passed, key :: keys, value, doc =>
    let passed := passed ++ [key]
    let (members, lost) : Document × List Warning := match doc.find? key with
      | none => ([], [])
      | some (.obj members) => (members, [])
      | some _ => ([], [.replacedIntermediate path (Text.ofSegments passed)])
    let (inner, more) := setFrom path passed keys value members
    (doc.put key (.obj inner), lost ++ more)

def setPath (path : String) (value : Json) (doc : Document) : Document × List Warning :=
  setFrom path [] (Text.segments path) value doc

end SettingsSweep.Document

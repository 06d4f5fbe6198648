import SettingsSweep.Document.Merge
import SettingsSweep.Document.Parameters
import SettingsSweep.Json.Reader
import SettingsSweep.Scalar

/-!
How the value of an axis enters a document: at its path, or into the prompts.
-/

set_option autoImplicit false

namespace SettingsSweep

namespace Prompts

def ofText? (text : String) : Option Prompts :=
  match Json.ofText text.toList with
  | .ok value => ofJson? value
  | .error _ => none

/-- The frames that an override value gives, and a warning if it looks like frames but is not. -/
def replacement (axis : AxisName) (value : Scalar) : Prompts × List Warning :=
  let text := value.display
  if Text.opensWith ['\x7b'] text.toList then
    match ofText? text with
    | some prompts => (prompts, [])
    | none => (single text, [.promptOverride axis text])
  else (single text, [])

def merge (prompts : Prompts) (mode : PromptMode) (axis : AxisName) (value : Scalar) :
    Prompts × List Warning :=
  match mode with
  | .append => (prompts.append value.display, [])
  | .override => replacement axis value

end Prompts

/-- A document in the making, with its prompts still beside it. -/
structure Draft where
  document : Document
  prompts : Prompts

structure Assignment where
  axis : AxisName
  field : String
  kind : FieldKind
  mode : PromptMode
  value : Scalar

namespace Draft

def assign (draft : Draft) (a : Assignment) : Draft × List Warning :=
  match a.kind with
  | .prompts =>
    let (prompts, warnings) := draft.prompts.merge a.mode a.axis a.value
    ({ draft with prompts := prompts }, warnings)
  | _ =>
    let (document, warnings) := draft.document.setPath a.field a.value.toJson
    ({ draft with document := document }, warnings)

def assignAll (draft : Draft) : List Assignment → Draft × List Warning
  | [] => (draft, [])
  | a :: rest =>
    let (draft, warnings) := draft.assign a
    let (draft, more) := draft.assignAll rest
    (draft, warnings ++ more)

end Draft

namespace Document

def removeAll (doc : Document) (keys : List String) : Document :=
  keys.foldl (fun d key => d.remove key) doc

/-- Without the image flag its path and strength mean nothing and are removed. -/
def dropStale (fields : InitImageFields) (doc : Document) : Document :=
  match doc.find? fields.flag with
  | some (.bool false) => doc.removeAll fields.dependents
  | _ => doc

end Document

end SettingsSweep

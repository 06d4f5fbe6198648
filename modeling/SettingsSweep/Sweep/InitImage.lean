import SettingsSweep.Sweep.Override

/-!
The initial image of a sweep.
-/

set_option autoImplicit false

namespace SettingsSweep

inductive InitImage
  | disabled
  | enabled (path strength : String)
  deriving DecidableEq

namespace InitImage

def unquote (text : List Char) : List Char :=
  match text with
  | '"' :: rest => if rest.getLast? = some '"' then rest.dropLast else text
  | _ => text

def normalizePath (path : String) : String :=
  String.ofList ((unquote (Text.trimChars path.toList)).map fun c => if c = '\\' then '/' else c)

def strengthJson (strength : String) : Json :=
  let trimmed := Text.trim strength
  match Scalar.finite? trimmed with
  | some x => .ofNumber x
  | none => .str trimmed

def apply (image : InitImage) (fields : InitImageFields) (doc : Document) : Document :=
  match image with
  | .disabled => Document.dropStale fields (doc.put fields.flag (.bool false))
  | .enabled path strength =>
    ((doc.put fields.flag (.bool true)).put fields.path (.str (normalizePath path))).put
      fields.strength (strengthJson strength)

end InitImage

end SettingsSweep

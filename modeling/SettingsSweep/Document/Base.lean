import SettingsSweep.Json.Reader
import SettingsSweep.Text.Lines

/-!
Base documents: a JSON object with comment lines.
-/

set_option autoImplicit false

namespace SettingsSweep

inductive BaseError
  | empty
  | notJson (fault : Json.Fault) (text : List Char)
  | notObject (found : Json)

namespace BaseError

def message : BaseError → String
  | .empty => "settings document is empty"
  | .notJson fault text => "invalid settings JSON: " ++ fault.message text
  | .notObject found => "settings document must be a JSON object, found " ++ found.describe

end BaseError

def Document.ofText (text : String) : Except BaseError Document :=
  let cleaned := Text.stripCommentsChars text.toList
  if cleaned.all Text.isBlank then .error .empty
  else match Json.ofText cleaned with
    | .error fault => .error (.notJson fault cleaned)
    | .ok (.obj members) => .ok members
    | .ok other => .error (.notObject other)

end SettingsSweep

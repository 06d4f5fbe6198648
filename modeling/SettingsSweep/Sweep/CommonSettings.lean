import SettingsSweep.Catalog
import SettingsSweep.Document.Path
import SettingsSweep.Scalar
import SettingsSweep.Text.Digit

/-!
Settings shared by all documents of a sweep, as they are typed into a form.
-/

set_option autoImplicit false

namespace SettingsSweep

inductive AnimationMode
  | flat
  | spatial
  deriving DecidableEq

namespace AnimationMode

def name : AnimationMode → String
  | .flat => "2D"
  | .spatial => "3D"

def ofText (text : String) : Except String AnimationMode :=
  match Text.upper (Text.trim text) with
  | "2D" => .ok .flat
  | "3D" => .ok .spatial
  | other => .error s!"invalid animation mode '{other}': expected '2D' or '3D'"

def motionFields : AnimationMode → List (String × String)
  | .flat =>
    [("zoom", "0: (1.04)"), ("translation_x", "0: (0)"), ("translation_y", "0: (0)"),
      ("rotation_2d", "0: (0)")]
  | .spatial =>
    [("translation_x", "0: (0)"), ("translation_y", "0: (0)"), ("translation_z", "0: (1.75)"),
      ("rotation_3d_x", "0: (0)"), ("rotation_3d_y", "0: (0)"), ("rotation_3d_z", "0: (0)")]

end AnimationMode

namespace Schedule

/-- A frame number, a colon and an opening bracket at the start of a text. -/
def isKeyframe (text : String) : Bool :=
  let text := Text.skipBlank text.toList
  let text := match text with
    | '-' :: rest => rest
    | _ => text
  if text.takeWhile Text.isDigit = [] then false
  else match Text.skipBlank (text.dropWhile Text.isDigit) with
    | ':' :: rest => (Text.skipBlank rest).head? = some '('
    | _ => false

/-- A bare value becomes the value at frame zero. -/
def wrap (raw : String) : String :=
  let trimmed := Text.trim raw
  if isKeyframe trimmed then trimmed else "0: (" ++ trimmed ++ ")"

end Schedule

/-- A number if the text is just what that number reads, and else the text itself. -/
def coerce (raw : String) : Json :=
  match Scalar.finite? raw with
  | some x => if (Scalar.number x).display = raw then .ofNumber x else .str raw
  | none => .str raw

abbrev CommonSettings := Document

namespace CommonSettings

def fieldName (field : String) : String :=
  let trimmed := Text.trim field
  if trimmed = "cfg_scale_schedule" then "cfg_scale" else trimmed

def fieldValue (catalog : Catalog) (field raw : String) : Json :=
  match catalog.classify field with
  | .schedule => .str (Schedule.wrap raw)
  | _ => coerce raw

/-- Sets a field; blank text sets nothing. -/
def set (settings : CommonSettings) (catalog : Catalog) (field raw : String) : CommonSettings :=
  if Text.isBlankText raw then settings
  else
    let name := fieldName field
    settings.put name (fieldValue catalog name (Text.trim raw))

def isBlank : Json → Bool
  | .null => true
  | .str s => Text.isBlankText s
  | _ => false

def motionValue (base : Document) (field default : String) : Json :=
  match base.find? field with
  | some value => if isBlank value then .str default else value
  | none => .str default

/-- Motion fields that are set already keep their values. -/
def setMode (settings : CommonSettings) (mode : AnimationMode) (base : Document) :
    CommonSettings :=
  mode.motionFields.foldl
    (fun settings (field, default) =>
      if settings.has field then settings
      else settings.put field (motionValue base field default))
    (settings.put "animation_mode" (.str mode.name))

end CommonSettings

end SettingsSweep

import SettingsSweep.Json.Record
import SettingsSweep.Text.Blank

/-!
An axis of a sweep: the field that it varies and the rows from which its values come.
-/

set_option autoImplicit false

namespace SettingsSweep

inductive AxisName
  | x
  | y
  | z
  deriving DecidableEq

namespace AxisName

def letter : AxisName → String
  | .x => "x"
  | .y => "y"
  | .z => "z"

def metaKey (axis : AxisName) : String := axis.letter ++ "_axis"

def title (axis : AxisName) : String := Text.upper axis.letter ++ "-Axis"

def all : List (String × AxisName) := [("x", .x), ("y", .y), ("z", .z)]

end AxisName

inductive PromptMode
  /-- It is added to the text of every frame. -/
  | append
  /-- It takes the place of all frames. -/
  | override
  deriving DecidableEq

namespace PromptMode

def name : PromptMode → String
  | .append => "append"
  | .override => "override"

def all : List (String × PromptMode) := [("append", .append), ("override", .override)]

/-- Blanks around a mode and its case do not matter. -/
def ofText (text : String) : Except String PromptMode :=
  let lowered := Text.lower (Text.trim text)
  match Dict.find? lowered all with
  | some mode => .ok mode
  | none => .error s!"invalid prompt mode '{lowered}': expected 'append' or 'override'"

end PromptMode

/-- An axis as it is asked for. Rows are written as expressions, or picked as choices. -/
structure Axis where
  name : AxisName
  field : String := ""
  enabled : Bool := true
  expressions : List String := []
  choices : List String := []
  promptMode : PromptMode := .append
  deriving DecidableEq

namespace Axis

def path (axis : Axis) : String := Text.trim axis.field

def hasField (axis : Axis) : Bool := !Text.isBlankText axis.field

def toJson (axis : Axis) : Json :=
  .obj [("id", .str axis.name.letter),
    ("field", .str axis.field),
    ("enabled", .bool axis.enabled),
    ("expressions", .arr (axis.expressions.map .str)),
    ("choices", .arr (axis.choices.map .str)),
    ("prompt_mode", .str axis.promptMode.name)]

/-- An axis must have a name; all else has a default. -/
def read : Json.Read Axis := fun lexemes => do
  let ((named, axis), rest) ← Json.readRecord
    [.of "id" (Json.readName AxisName.all) fun (_, r) name => (true, { r with name := name }),
      .of "field" Json.readText fun (n, r) s => (n, { r with field := s }),
      .of "enabled" Json.readBool fun (n, r) b => (n, { r with enabled := b }),
      .of "expressions" (Json.readList Json.readText) fun (n, r) xs =>
        (n, { r with expressions := xs }),
      .of "choices" (Json.readList Json.readText) fun (n, r) xs => (n, { r with choices := xs }),
      .of "prompt_mode" (Json.readName PromptMode.all) fun (n, r) m =>
        (n, { r with promptMode := m })]
    (false, ({ name := .x } : Axis)) lexemes
  if named then .ok (axis, rest) else .error ⟨.unwantedShape, [], 0⟩

end Axis

end SettingsSweep

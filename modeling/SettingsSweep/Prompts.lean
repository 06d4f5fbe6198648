import SettingsSweep.Json.Printer
import SettingsSweep.Text.Blank

/-!
Prompt frames: texts by frame index, in the order in which the frames were given.
-/

set_option autoImplicit false

namespace SettingsSweep

abbrev Prompts := Dict String

namespace Prompts

def single (text : String) : Prompts := [("0", text)]

def frameText : Json → String
  | .str s => s
  | value => value.compact

def ofJson? : Json → Option Prompts
  | .obj members => some (members.map fun (frame, value) => (frame, frameText value))
  | _ => none

def toJson (prompts : Prompts) : Json := .obj (prompts.map fun (frame, text) => (frame, .str text))

/-- A prompt with a negative part, unless that is blank. -/
def withNegative (positive negative : String) : String :=
  if Text.isBlankText negative then positive else positive ++ " --neg " ++ negative

def append (prompts : Prompts) (text : String) : Prompts :=
  prompts.map fun (frame, current) => (frame, current ++ ", " ++ text)

end Prompts

end SettingsSweep

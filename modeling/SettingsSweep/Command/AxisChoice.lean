import SettingsSweep.Command.Session
import SettingsSweep.Naming.Options

/-!
Axes and naming options from what the command line gives for them.
-/

set_option autoImplicit false

namespace SettingsSweep.Command

def choiceTokens (rows : List String) : List String :=
  rows.flatMap fun row => (Expansion.listTokens row.toList)

namespace AxisFlags

def path (flags : AxisFlags) : String := Text.trim (flags.field.getD "")

/-- Rows for a choice field are lists of options, unless options are given as such. -/
def options (flags : AxisFlags) (catalog : Catalog) : List String :=
  if flags.choices.isEmpty ∧ flags.path ≠ "" ∧ catalog.classify flags.path = .choice then
    choiceTokens flags.values
  else flags.choices

def mode (flags : AxisFlags) (name : AxisName) : Except Failure PromptMode :=
  match flags.promptMode with
  | none => .ok .append
  | some text => (PromptMode.ofText text).mapError (.badPromptMode name)

/-- An axis without a field is one that cannot be swept. -/
def toAxis (flags : AxisFlags) (name : AxisName) (catalog : Catalog) : Except Failure Axis := do
  let mode ← flags.mode name
  .ok { name := name, field := flags.path, expressions := flags.values,
        choices := flags.options catalog, promptMode := mode }

end AxisFlags

/-- The axes of a command; Z is there if its field is given. -/
structure AxisChoice where
  x : Axis
  y : Axis
  z : Option Axis

namespace AxisChoice

def toList (choice : AxisChoice) : List Axis := choice.x :: choice.y :: choice.z.toList

def ofFlags (flags : AxesFlags) (catalog : Catalog) : Except Failure AxisChoice := do
  let x ← flags.x.toAxis .x catalog
  let y ← flags.y.toAxis .y catalog
  let z ← match flags.z.field with
    | none => pure none
    | some _ => (flags.z.toAxis .z catalog).map some
  .ok ⟨x, y, z⟩

end AxisChoice

def dottedExtension (extension : String) : String :=
  if extension = "" ∨ extension.toList.head? = some '.' then extension else "." ++ extension

def NamingFlags.over (flags : NamingFlags) (options : NamingOptions) :
    Except Failure NamingOptions := do
  if flags.template.any hasSeparator then .error .separatorInTemplate
  else
    let policy ← match flags.onDuplicate with
      | none => pure options.onDuplicate
      | some text => (DuplicatePolicy.ofText text).mapError .badDuplicatePolicy
    .ok { template := flags.template.or options.template
          filename := flags.filename.getD options.filename
          extension := (flags.extension.map dottedExtension).getD options.extension
          onDuplicate := policy }

end SettingsSweep.Command

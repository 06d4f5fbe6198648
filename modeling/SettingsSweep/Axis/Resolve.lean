import SettingsSweep.Axis.Distinct
import SettingsSweep.Axis.Expression
import SettingsSweep.Catalog

/-!
The values of an axis: all rows in order, each value once.
-/

set_option autoImplicit false

namespace SettingsSweep

structure ResolvedAxis where
  name : AxisName
  field : String
  kind : FieldKind
  values : List Scalar
  warnings : List Warning

structure Contribution where
  values : List Scalar := []
  warnings : List Warning := []

namespace Contribution

def concat (parts : List Contribution) : Contribution :=
  ⟨parts.flatMap (·.values), parts.flatMap (·.warnings)⟩

def ofExpression (axis : AxisName) (expression : String) : Contribution :=
  let row := Row.ofText expression
  ⟨row.values, row.warning.toList.map (.range axis)⟩

/-- A picked option. An option that the catalog does not list is taken with a warning. -/
def ofChoice (axis : AxisName) (field : String) (known : List String) (choice : String) :
    Contribution :=
  let token := Text.trim choice
  if token = "" then {}
  else ⟨[.text token],
    if known ≠ [] ∧ token ∉ known then [.unknownChoice axis field token] else []⟩

/-- A row of a prompt axis. Frames written as an object have commas in them and stay whole. -/
def ofPromptRow (axis : AxisName) (expression : String) : Contribution :=
  if Text.opensWith ['\x7b'] expression.toList then ⟨[.text (Text.trim expression)], []⟩
  else ofExpression axis expression

end Contribution

namespace Axis

/-- Choice fields take the picked options, all others their rows. -/
def contributions (axis : Axis) (catalog : Catalog) : List Contribution :=
  match catalog.classify axis.path with
  | .choice =>
    axis.choices.map
      (Contribution.ofChoice axis.name axis.path ((catalog.choicesFor? axis.path).getD []))
  | .prompts => axis.expressions.map (Contribution.ofPromptRow axis.name)
  | _ => axis.expressions.map (Contribution.ofExpression axis.name)

def resolve (axis : Axis) (catalog : Catalog) : ResolvedAxis :=
  let kind := catalog.classify axis.path
  if axis.hasField then
    let all := Contribution.concat (axis.contributions catalog)
    ⟨axis.name, axis.path, kind, Scalar.distinctHashed all.values, all.warnings⟩
  else ⟨axis.name, axis.path, kind, [], []⟩

end Axis

end SettingsSweep

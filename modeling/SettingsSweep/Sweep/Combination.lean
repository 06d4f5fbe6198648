import SettingsSweep.Naming.FileName
import SettingsSweep.Sweep.Request

/-!
The combinations of axis values, in order: X runs fastest and Z slowest.
-/

set_option autoImplicit false

namespace SettingsSweep

structure Combination where
  x : Scalar
  y : Scalar
  z : Option Scalar
  deriving DecidableEq

namespace Combination

/-- Without a Z axis there is one pass over X and Y. -/
def zValues (axes : SweepAxes) : List (Option Scalar) :=
  match axes.z with
  | some z => z.values.map some
  | none => [none]

def all (axes : SweepAxes) : List Combination :=
  (zValues axes).flatMap fun z =>
    axes.y.values.flatMap fun y =>
      axes.x.values.map fun x => ⟨x, y, z⟩

def entries (c : Combination) (axes : SweepAxes) : List (ResolvedAxis × Scalar) :=
  (axes.x, c.x) :: (axes.y, c.y) ::
    (match axes.z, c.z with
      | some axis, some value => [(axis, value)]
      | _, _ => [])

def assignments (c : Combination) (request : SweepRequest) (axes : SweepAxes) :
    List Assignment :=
  (c.entries axes).map fun (axis, value) =>
    ⟨axis.name, axis.field, axis.kind, request.promptMode axis.name, value⟩

/-- The value of each field; of two axes with one field the later decides. -/
def overrides (c : Combination) (axes : SweepAxes) : Document :=
  Dict.ofList ((c.entries axes).map fun (axis, value) => (axis.field, value.toJson))

def axisValue? (c : Combination) (axes : SweepAxes) (name : AxisName) : Option AxisValue :=
  ((c.entries axes).find? fun (axis, _) => axis.name = name).map fun (axis, value) =>
    ⟨axis.field, value⟩

end Combination

end SettingsSweep

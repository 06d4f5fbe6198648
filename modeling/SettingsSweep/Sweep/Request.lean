import SettingsSweep.Axis.Resolve
import SettingsSweep.Sweep.InitImage

/-!
What is asked of a sweep, and what has to hold before it starts.
-/

set_option autoImplicit false

namespace SettingsSweep

/-- Common settings are layered over the base, and the initial image over both. Prompts that are not
    given come from the result. -/
structure SweepRequest where
  base : Document
  x : Axis
  y : Axis
  z : Option Axis := none
  prompts : Option Prompts := none
  common : Document := []
  initImage : Option InitImage := none

inductive SweepError
  | missingField (axis : AxisName)
  | emptyAxis (axis : AxisName) (field : String)
  deriving DecidableEq

namespace SweepError

def axis : SweepError → AxisName
  | .missingField axis => axis
  | .emptyAxis axis _ => axis

def message : SweepError → String
  | .missingField axis => axis.title ++ " parameter must be selected"
  | .emptyAxis axis field => axis.title ++ " parameter '" ++ field ++ "' has no values defined"

end SweepError

/-- The resolved axes of a sweep; Z is there if it takes part. -/
structure SweepAxes where
  x : ResolvedAxis
  y : ResolvedAxis
  z : Option ResolvedAxis

def SweepAxes.toList (axes : SweepAxes) : List ResolvedAxis := axes.x :: axes.y :: axes.z.toList

namespace SweepRequest

/-- A disabled Z axis takes no part. -/
def activeZ (request : SweepRequest) : Option Axis := request.z.filter (·.enabled)

def activeAxes (request : SweepRequest) : List Axis :=
  request.x :: request.y :: request.activeZ.toList

def effectiveBase (request : SweepRequest) (catalog : Catalog) : Document × List Warning :=
  let (merged, warnings) := Document.merge request.base request.common
  match request.initImage with
  | some image => (image.apply catalog.initImage merged, warnings)
  | none => (merged, warnings)

def missingField? (request : SweepRequest) : Option SweepError :=
  (request.activeAxes.find? fun axis => !axis.hasField).map fun axis => .missingField axis.name

def emptyAxis? (axes : SweepAxes) : Option SweepError :=
  (axes.toList.find? fun axis => axis.values.isEmpty).map fun axis =>
    .emptyAxis axis.name axis.field

/-- All fields are looked at before any values are. -/
def resolveAxes (request : SweepRequest) (catalog : Catalog) : Except SweepError SweepAxes :=
  match request.missingField? with
  | some error => .error error
  | none =>
    let axes : SweepAxes :=
      ⟨request.x.resolve catalog, request.y.resolve catalog,
        request.activeZ.map fun z => z.resolve catalog⟩
    match emptyAxis? axes with
    | some error => .error error
    | none => .ok axes

/-- The prompt mode of an axis; of two axes with one name the later decides. -/
def promptMode (request : SweepRequest) (name : AxisName) : PromptMode :=
  match request.activeAxes.reverse.find? fun axis => axis.name = name with
  | some axis => axis.promptMode
  | none => .append

end SweepRequest

end SettingsSweep

import SettingsSweep.Naming.FileName

/-!
The block that tells how a document came to be.
-/

set_option autoImplicit false

namespace SettingsSweep

/-- X and Y are always part of a sweep. -/
structure PlotParams where
  x : AxisValue
  y : AxisValue
  z : Option AxisValue
  deriving DecidableEq

structure Provenance where
  generatedBy : String
  generatedAt : Instant
  params : PlotParams
  deriving DecidableEq

namespace PlotParams

def get? (params : PlotParams) : AxisName → Option AxisValue
  | .x => some params.x
  | .y => some params.y
  | .z => params.z

def entryJson (axis : AxisName) (v : AxisValue) : String × Json :=
  (axis.metaKey, .obj [("param", .str v.field), ("value", v.value.toJson)])

def toJson (params : PlotParams) : Json :=
  .obj (entryJson .x params.x :: entryJson .y params.y :: (params.z.map (entryJson .z)).toList)

end PlotParams

namespace Provenance

def key : String := "meta"

def toJson (provenance : Provenance) : Json :=
  .obj [("generated_by", .str provenance.generatedBy),
    ("generated_at", .str provenance.generatedAt.header),
    ("plot_params", provenance.params.toJson)]

def fileName (provenance : Provenance) (template : String) (settings : Document)
    (options : NamingOptions) : String :=
  FileName.ofTemplate template
    (FileName.combinationContext provenance.generatedAt provenance.params.get?) settings options

end Provenance

end SettingsSweep

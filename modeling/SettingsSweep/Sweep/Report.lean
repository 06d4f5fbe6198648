import SettingsSweep.Naming.Registry
import SettingsSweep.Sweep.Combination
import SettingsSweep.Sweep.Provenance

/-!
A sweep: one document for each combination, and what there is to report about the whole.
-/

set_option autoImplicit false

namespace SettingsSweep

structure SweepOptions where
  catalog : Catalog := {}
  naming : NamingOptions := {}
  generatedBy : String := "xyzplot"

/-- A document before it has a file name. -/
structure Variant where
  combination : Combination
  overrides : Document
  document : Document
  provenance : Provenance
  warnings : List Warning

structure Artifact where
  overrides : Document
  /-- The whole document, with its provenance. -/
  document : Document
  filename : String
  provenance : Provenance

namespace Artifact

def content (artifact : Artifact) : String := (Json.obj artifact.document).pretty

end Artifact

structure SweepReport where
  artifacts : List Artifact
  axes : SweepAxes
  /-- Each warning once, in the order of first appearance. -/
  warnings : List Warning
  /-- The names that were asked for while in use, each once. -/
  duplicates : List String

namespace SweepRequest

def plotParams (c : Combination) (axes : SweepAxes) : PlotParams :=
  let blank : AxisValue := ⟨"", .text ""⟩
  ⟨(c.axisValue? axes .x).getD blank, (c.axisValue? axes .y).getD blank, c.axisValue? axes .z⟩

/-- The document of a combination, made from the effective base: values at their paths, then the
    prompts, and no image settings without the image flag. -/
def variant (request : SweepRequest) (options : SweepOptions) (now : Instant) (axes : SweepAxes)
    (base : Document) (prompts : Prompts) (c : Combination) : Variant :=
  let (draft, warnings) := (Draft.mk base prompts).assignAll (c.assignments request axes)
  let document : Document :=
    Document.dropStale options.catalog.initImage
      (draft.document.put options.catalog.promptsField draft.prompts.toJson)
  ⟨c, c.overrides axes, document, ⟨options.generatedBy, now, plotParams c axes⟩, warnings⟩

def template (options : SweepOptions) (axes : SweepAxes) : String :=
  options.naming.template.getD (Template.suggest true true axes.z.isSome)

end SweepRequest

/-- The state of a run between two combinations. Artifacts and duplicates are kept in reverse. -/
structure SweepState where
  registry : NameRegistry := {}
  artifacts : List Artifact := []
  warnings : List Warning
  duplicates : List String := []

namespace SweepState

def add (state : SweepState) (options : SweepOptions) (template : String) (v : Variant) :
    SweepState :=
  let rendered := v.provenance.fileName template v.document options.naming
  let (registry, claim) := state.registry.claim options.naming rendered
  let clash := if claim.duplicate then [Warning.duplicateFilename rendered] else []
  let artifact : Artifact :=
    ⟨v.overrides, Dict.put Provenance.key v.provenance.toJson v.document, claim.name, v.provenance⟩
  { registry := registry
    artifacts := artifact :: state.artifacts
    warnings := Warning.addNew (Warning.addNew state.warnings v.warnings) clash
    duplicates :=
      if claim.duplicate ∧ rendered ∉ state.duplicates then rendered :: state.duplicates
      else state.duplicates }

end SweepState

namespace SweepRequest

/-- Generates all documents. The clock enters only their provenance and their names. -/
def generate (request : SweepRequest) (options : SweepOptions) (now : Instant) :
    Except SweepError SweepReport :=
  match request.resolveAxes options.catalog with
  | .error error => .error error
  | .ok axes =>
    let (base, mergeWarnings) := request.effectiveBase options.catalog
    let prompts := request.prompts.getD (base.prompts options.catalog)
    let warnings := Warning.addNew
      (Warning.addNew [] (axes.toList.flatMap (·.warnings))) mergeWarnings
    let final := (Combination.all axes).foldl
      (fun (state : SweepState) c =>
        state.add options (template options axes)
          (request.variant options now axes base prompts c))
      { warnings := warnings }
    .ok ⟨final.artifacts.reverse, axes, final.warnings, final.duplicates.reverse⟩

end SweepRequest

end SettingsSweep

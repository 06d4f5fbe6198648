import SettingsSweep.Json.Finite
import SettingsSweep.Sweep.Report

/-!
A sweep with its documents written down. A serializer may fail, and then the file that it failed on is told.
-/

set_option autoImplicit false

namespace SettingsSweep

/-- Turns values into values of a document and into texts, with errors of its own. -/
structure Serializer (ε : Type) where
  value : Json → Except ε Json
  text : Json → Except ε String

/-- A serializer that does not fail on a JSON value. Other numbers than finite ones have no place in one. -/
structure Serializer.Faithful {ε : Type} (serializer : Serializer ε) : Prop where
  value : ∀ v : Json, v.isFinite = true → serializer.value v = .ok v
  text : ∀ v : Json, v.isFinite = true → serializer.text v = .ok v.pretty

inductive FilesError (ε : Type)
  | sweep (error : SweepError)
  | serialize (filename : String) (source : ε)

def FilesError.message {ε : Type} (sourceMessage : ε → String) : FilesError ε → String
  | .sweep error => error.message
  | .serialize filename source => "failed to serialize " ++ filename ++ ": " ++ sourceMessage source

structure GeneratedFile where
  filename : String
  content : String

def Artifact.file (artifact : Artifact) : GeneratedFile := ⟨artifact.filename, artifact.content⟩

variable {ε : Type}

/-- Names a document and files it with its provenance as it is serialized. -/
def SweepState.addBy (state : SweepState) (serializer : Serializer ε) (options : SweepOptions) (template : String)
    (v : Variant) : Except (FilesError ε) SweepState :=
  let filename :=
    (state.registry.claim options.naming (v.provenance.fileName template v.document options.naming)).2.name
  match serializer.value v.provenance.toJson with
  | .error source => .error (.serialize filename source)
  | .ok provenance =>
    let artifact : Artifact :=
      ⟨v.overrides, Dict.put Provenance.key provenance v.document, filename, v.provenance⟩
    .ok { state.add options template v with artifacts := artifact :: state.artifacts }

/-- Generates all documents, up to the first whose provenance cannot be serialized. -/
def SweepRequest.generateBy (request : SweepRequest) (serializer : Serializer ε) (options : SweepOptions)
    (now : Instant) : Except (FilesError ε) SweepReport :=
  match request.resolveAxes options.catalog with
  | .error error => .error (.sweep error)
  | .ok axes => do
    let (base, mergeWarnings) := request.effectiveBase options.catalog
    let prompts := request.prompts.getD (base.prompts options.catalog)
    let warnings := Warning.addNew
      (Warning.addNew [] (axes.toList.flatMap (·.warnings))) mergeWarnings
    let final ← (Combination.all axes).foldlM
      (fun (state : SweepState) c =>
        state.addBy serializer options (template options axes)
          (request.variant options now axes base prompts c))
      { warnings := warnings }
    .ok ⟨final.artifacts.reverse, axes, final.warnings, final.duplicates.reverse⟩

/-- The documents of a report as texts, up to the first that cannot be serialized. -/
def SweepReport.toFiles (report : SweepReport) (serializer : Serializer ε) :
    Except (FilesError ε) (List GeneratedFile) :=
  report.artifacts.mapM fun artifact =>
    match serializer.text (.obj artifact.document) with
    | .error source => .error (.serialize artifact.filename source)
    | .ok content => .ok ⟨artifact.filename, content⟩

end SettingsSweep

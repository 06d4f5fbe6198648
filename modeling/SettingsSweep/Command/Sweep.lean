import SettingsSweep.Command.Inspect
import SettingsSweep.Sweep.CommonSettings
import SettingsSweep.Sweep.Report

/-!
Generating the files of a sweep. All files are planned before the first is written.
-/

set_option autoImplicit false

namespace SettingsSweep.Command

def readAssignment (flag text : String) : Except Failure (String × String) :=
  match Grammar.splitEquals text.toList with
  | (_, none) => .error (.badAssignment flag text .noEquals)
  | (key, some value) =>
    let key := Text.trimChars key
    if key = [] then .error (.badAssignment flag text .emptyKey)
    else .ok (String.ofList key, String.ofList value)

namespace GenerateFlags

/-- The settings for all documents. The animation mode comes after the settings that are given one by
    one. -/
def common (flags : GenerateFlags) (catalog : Catalog) (base : Document) :
    Except Failure CommonSettings := do
  let assignments ← flags.set.mapM (readAssignment "--set")
  let settings : CommonSettings := assignments.foldl
    (fun (settings : CommonSettings) entry => settings.set catalog entry.1 entry.2) []
  match flags.animationMode with
  | none => .ok settings
  | some text =>
    let mode ← (AnimationMode.ofText text).mapError .badAnimationMode
    .ok (settings.setMode mode base)

def defaultStrength : String := "0.8"

/-- The strength of a base document as it would be typed, if it has one that is no blank text. -/
def baseStrength? (base : Document) (catalog : Catalog) : Option String :=
  match base.find? catalog.initImage.strength with
  | some (.str s) => if Text.isBlankText s then none else some s
  | some (.int n) => some (Json.int n).compact
  | some (.real x) => some (Json.real x).compact
  | _ => none

def image (flags : GenerateFlags) (base : Document) (catalog : Catalog) : Option InitImage :=
  if flags.noInit then some .disabled
  else flags.initImage.map fun path =>
    .enabled path (flags.strength.getD ((baseStrength? base catalog).getD defaultStrength))

def prompts (flags : GenerateFlags) : Except Failure (Option Prompts) := do
  if flags.keyframes.isEmpty then
    .ok (flags.prompt.map fun positive =>
      Prompts.single (Prompts.withNegative positive (flags.negative.getD "")))
  else
    let frames ← flags.keyframes.mapM (readAssignment "--keyframe")
    .ok (some (Dict.putAll [] frames))

def request (flags : GenerateFlags) (base : Document) (catalog : Catalog) :
    Except Failure SweepRequest := do
  let axes ← AxisChoice.ofFlags flags.axes catalog
  let common ← flags.common catalog base
  let prompts ← flags.prompts
  .ok { base := base, x := axes.x, y := axes.y, z := axes.z, prompts := prompts,
        common := common, initImage := flags.image base catalog }

end GenerateFlags

structure PlannedFile where
  path : String
  content : String
  params : PlotParams

namespace PlannedFile

def groupName (z : AxisValue) : String :=
  "z_" ++ FileName.sanitize (shortName z.field) ++ "_" ++ FileName.sanitize z.value.display

def directory (out : String) (groupByZ : Bool) (params : PlotParams) : String :=
  match params.z, groupByZ with
  | some z, true => Path.join out (groupName z)
  | _, _ => out

def ofArtifact (out : String) (groupByZ : Bool) (artifact : Artifact) : PlannedFile :=
  ⟨Path.join (directory out groupByZ artifact.provenance.params) artifact.filename,
    artifact.content, artifact.provenance.params⟩

def toJson (file : PlannedFile) : Json :=
  .obj ([("path", .str file.path), ("x", file.params.x.value.toJson),
      ("y", file.params.y.value.toJson)] ++
    (file.params.z.map fun z => ("z", z.value.toJson)).toList)

end PlannedFile

structure SweepPlan where
  report : SweepReport
  out : String
  files : List PlannedFile

/-- Plans a sweep. This reads files and writes none. -/
def GenerateFlags.plan (flags : GenerateFlags) (session : Session) (global : GlobalFlags) :
    Except Failure SweepPlan := do
  let config ← session.loadConfig global
  let base ← session.loadBase flags.base
  let request ← flags.request base config.fields
  let naming ← flags.naming.over config.naming
  let options : SweepOptions := ⟨config.fields, naming, config.generatedBy⟩
  let report ← (request.generate options session.now).mapError .sweep
  let out := flags.out.getD config.output.dir
  let groupByZ := flags.groupByZ || config.output.groupByZ
  .ok ⟨report, out, report.artifacts.map (PlannedFile.ofArtifact out groupByZ)⟩

def writePlanned (files : FileSystem) (directory : Location) (file : PlannedFile) :
    FileSystem × Option Failure :=
  let parent := (Path.parent? file.path).getD ""
  match files.makeDirectories directory parent with
  | (files, some fault) => (files, some (.makeDirectory parent fault))
  | (files, none) =>
    match files.write directory file.path file.content.toUTF8 with
    | .ok files => (files, none)
    | .error fault => (files, some (.writeFile file.path fault))

def writeAll (directory : Location) : FileSystem → List PlannedFile → FileSystem × Option Failure
  | files, [] => (files, none)
  | files, file :: rest => match writePlanned files directory file with
    | (files, none) => writeAll directory files rest
    | (files, some failure) => (files, some failure)

def axisJson (axis : ResolvedAxis) : Json :=
  .obj [("axis", .str axis.name.letter), ("field", .str axis.field),
    ("kind", .str axis.kind.name), ("values", scalarsJson axis.values)]

namespace SweepPlan

def toJson (plan : SweepPlan) (dryRun : Bool) : Json :=
  .obj [("dry_run", .bool dryRun), ("out_dir", .str plan.out),
    ("files", .arr (plan.files.map PlannedFile.toJson)),
    ("axes", .arr (plan.report.axes.toList.map axisJson)),
    ("warnings", warningsJson plan.report.warnings),
    ("duplicates", .ofTexts plan.report.duplicates)]

def details (plan : SweepPlan) (palette : Palette) : List Print :=
  (plan.report.axes.toList.map fun axis =>
    .line (palette.muted (axis.name.title ++ " " ++ axis.field ++ countLine axis))) ++
  plan.files.map fun file => .line ("  " ++ file.path)

def summary (plan : SweepPlan) (palette : Palette) (dryRun : Bool) : Print :=
  let count := toString plan.files.length
  if dryRun then
    .line (palette.accent ("Dry run: " ++ count ++ " files would be written to " ++ plan.out))
  else .line (palette.passIcon ++ " Wrote " ++ count ++ " files to " ++ plan.out)

def present (plan : SweepPlan) (session : Session) (global : GlobalFlags) (dryRun : Bool) :
    List Print :=
  if global.json then [.json (plan.toJson dryRun)]
  else
    let details := if global.quiet then []
      else session.warnings plan.report.warnings ++ plan.details session.palette
    details ++ [plan.summary session.palette dryRun]

end SweepPlan

def generate (session : Session) (global : GlobalFlags) (flags : GenerateFlags) : Outcome :=
  match flags.plan session global with
  | .error failure => session.fail failure
  | .ok plan =>
    let (files, failure) :=
      if flags.dryRun then (session.files, none)
      else writeAll session.directory session.files plan.files
    match failure with
    | some failure => { files := files, failure := some failure }
    | none => { files := files, prints := plan.present session global flags.dryRun }

end SettingsSweep.Command

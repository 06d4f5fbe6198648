import SettingsSweep.Command.AxisChoice
import SettingsSweep.Command.Table
import SettingsSweep.Document.Parameters
import SettingsSweep.Naming.FileName

/-!
Commands that only show something: what expressions stand for, which parameters a document has, and how
files would be named.
-/

set_option autoImplicit false

namespace SettingsSweep.Command

def scalarsJson (values : List Scalar) : Json := .arr (values.map Scalar.toJson)

def warningsJson (warnings : List Warning) : Json := .ofTexts (warnings.map Warning.message)

def countLine (axis : ResolvedAxis) : String :=
  " (" ++ axis.kind.name ++ "): " ++ toString axis.values.length ++ " values"

/-! Expressions. -/

def rowJson (expression : String) : Json :=
  let row := Row.ofText expression
  .obj [("expression", .str expression), ("values", scalarsJson row.values),
    ("warning", (row.warning.map fun w => Json.str w.message).getD .null)]

def rowCells (expression : String) : List String :=
  let row := Row.ofText expression
  [expression, toString row.values.length, ", ".intercalate (row.values.map Scalar.display),
    (row.warning.map RangeWarning.message).getD ""]

def showExpressions (session : Session) (global : GlobalFlags) (expressions : List String) :
    Outcome :=
  if global.json then session.printJson (.arr (expressions.map rowJson))
  else session.printTable
    (Table.format ["EXPRESSION", "COUNT", "VALUES", "WARNING"] (expressions.map rowCells))

/-- The axis of some expressions over a field. They serve as rows and as lists of options alike. -/
def axisOfExpressions (field : String) (expressions : List String) : Axis :=
  { name := .x, field := field, expressions := expressions, choices := choiceTokens expressions }

def showAxis (session : Session) (global : GlobalFlags) (axis : ResolvedAxis) : Outcome :=
  if global.json then
    session.printJson (.obj [("field", .str axis.field), ("kind", .str axis.kind.name),
      ("values", scalarsJson axis.values), ("warnings", warningsJson axis.warnings)])
  else
    let warnings := if global.quiet then [] else session.warnings axis.warnings
    let values := axis.values.map fun v => Print.line ("  " ++ v.display)
    session.print (warnings ++ .line (axis.field ++ countLine axis) :: values)

def parse (session : Session) (global : GlobalFlags) (expressions : List String) :
    Option String → Outcome
  | none => showExpressions session global expressions
  | some field => session.showing do
    let config ← session.loadConfig global
    .ok (showAxis session global ((axisOfExpressions field expressions).resolve config.fields))

/-! Parameters. -/

def kindOfText (text : String) : Except Failure FieldKind :=
  let lowered := Text.lower (Text.trim text)
  match [FieldKind.boolean, .choice, .prompts, .schedule, .numeric].find? (·.name = lowered) with
  | some kind => .ok kind
  | none => .error (.unknownKind lowered)

def parameterJson (parameter : Parameter) : Json :=
  .obj ([("name", .str parameter.name), ("kind", .str parameter.kind.longName)] ++
    (parameter.current.map fun value => ("current", value)).toList)

def parameterCells (parameter : Parameter) : List String :=
  [parameter.name, parameter.kind.name, (parameter.current.map Table.cell).getD ""]

def showParameters (session : Session) (global : GlobalFlags) (parameters : List Parameter) :
    Outcome :=
  if global.json then session.printJson (.arr (parameters.map parameterJson))
  else if parameters.isEmpty then
    session.print (if global.quiet then [] else [.line "No parameters found."])
  else session.printTable
    (Table.format ["NAME", "KIND", "CURRENT"] (parameters.map parameterCells))

def params (session : Session) (global : GlobalFlags) (base : String) (kind : Option String) :
    Outcome :=
  session.showing do
    let config ← session.loadConfig global
    let doc ← session.loadBase base
    let all := doc.parameters config.fields
    match kind with
    | none => .ok (showParameters session global all)
    | some text =>
      let kind ← kindOfText text
      .ok (showParameters session global (all.filter (·.kind = kind)))

/-! File names. -/

structure NamePreview where
  template : String
  name : String

def previewName (config : Configuration) (naming : NamingOptions) (settings : Document)
    (choice : AxisChoice) (now : Instant) : NamePreview :=
  let axes := (choice.toList.filter (·.hasField)).map (·.resolve config.fields)
  let template := naming.template.getD
    (Template.suggest choice.x.hasField choice.y.hasField (choice.z.any (·.hasField)))
  ⟨template, FileName.preview template axes settings naming now⟩

def showName (session : Session) (global : GlobalFlags) (preview : NamePreview) : Outcome :=
  let known := Template.known preview.template
  let unknown := Template.unknown preview.template
  let palette := session.palette
  if global.json then
    session.printJson (.obj [("template", .str preview.template), ("preview", .str preview.name),
      ("variables", .ofTexts known), ("unknown", .ofTexts unknown)])
  else if global.quiet then session.print [.line preview.name]
  else
    session.print ([.line (palette.bold "Template:" ++ " " ++ preview.template),
      .line (palette.bold "Preview: " ++ " " ++ preview.name),
      .line (palette.muted ("Variables: " ++ ", ".intercalate known))] ++
      unknown.map fun name =>
        .warning palette ("unknown placeholder \x7b" ++ name ++ "\x7d is kept as written"))

def name (session : Session) (global : GlobalFlags) (base : Option String) (axes : AxesFlags)
    (naming : NamingFlags) : Outcome :=
  session.showing do
    let config ← session.loadConfig global
    let settings ← match base with
      | some path => session.loadBase path
      | none => pure []
    let naming ← naming.over config.naming
    let choice ← AxisChoice.ofFlags axes config.fields
    .ok (showName session global (previewName config naming settings choice session.now))

/-! The version. -/

def versionText : String := "0.1.0"

def target : String := "linux/x86_64"

def version (session : Session) (global : GlobalFlags) : Outcome :=
  let stamp := ({} : Configuration).generatedBy
  if global.json then
    session.printJson (.obj [("version", .str versionText), ("generated_by", .str stamp),
      ("target", .str target)])
  else session.print
    [.line ("xyzplot version " ++ versionText ++ " " ++ target ++ ", stamps '" ++ stamp ++ "'")]

end SettingsSweep.Command

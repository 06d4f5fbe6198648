import SettingsSweep.Json.Record
import SettingsSweep.Text.Lines

/-!
Kinds of settings fields, and the catalog of names by which a field is told to be of a kind.
-/

set_option autoImplicit false

namespace SettingsSweep

inductive FieldKind
  | boolean
  | choice
  | prompts
  | schedule
  | numeric
  deriving DecidableEq

namespace FieldKind

def name : FieldKind → String
  | .boolean => "boolean"
  | .choice => "choice"
  | .prompts => "prompts"
  | .schedule => "schedule"
  | .numeric => "numeric"

def longName : FieldKind → String
  | .choice => "enumerated_choice"
  | .prompts => "prompt_collection"
  | kind => kind.name

def ofLongName : List (String × FieldKind) :=
  [FieldKind.boolean, .choice, .prompts, .schedule, .numeric].map fun kind => (kind.longName, kind)

end FieldKind

/-- The flag that turns an initial image on, and the two fields that mean something only then. -/
structure InitImageFields where
  flag : String := "use_init"
  path : String := "init_image"
  strength : String := "strength"
  deriving DecidableEq

def InitImageFields.dependents (fields : InitImageFields) : List String :=
  [fields.path, fields.strength]

def samplers : List String :=
  ["euler", "euler_a", "lms", "heun", "dpm_2", "dpm_2_a", "dpmpp_2s_a", "dpmpp_2m", "dpmpp_sde",
    "ddim", "uni_pc"]

/-- The names that tell the kind of a field. Choice fields are kept in the order of their names. -/
structure Catalog where
  promptsField : String := "prompts"
  boolean : List String :=
    ["use_horizontal_flip", "use_vertical_flip", "normalize_latent_vectors", "use_init"]
  scheduleSuffixes : List String := ["_schedule"]
  scheduleFields : List String := ["cfg_scale"]
  choices : Dict (List String) := [("sampler", samplers)]
  initImage : InitImageFields := {}
  deriving DecidableEq

def shortName (field : String) : String := (Text.segments field).getLastD field

namespace Catalog

def isSchedule (catalog : Catalog) (name : String) : Bool :=
  name ∈ catalog.scheduleFields ||
    catalog.scheduleSuffixes.any fun suffix => suffix ≠ "" && suffix.toList.isSuffixOf name.toList

/-- The kind of a field by its short name. The first list that has the name decides. -/
def classify (catalog : Catalog) (field : String) : FieldKind :=
  let name := shortName field
  if name ∈ catalog.boolean then .boolean
  else if catalog.choices.has name then .choice
  else if name = catalog.promptsField then .prompts
  else if catalog.isSchedule name then .schedule
  else .numeric

def choicesFor? (catalog : Catalog) (field : String) : Option (List String) :=
  catalog.choices.find? (shortName field)

end Catalog

def Json.ofTexts (texts : List String) : Json := .arr (texts.map .str)

namespace InitImageFields

def toJson (fields : InitImageFields) : Json :=
  .obj [("flag", .str fields.flag), ("path", .str fields.path), ("strength", .str fields.strength)]

def read : Json.Read InitImageFields :=
  Json.readRecord
    [.of "flag" Json.readText fun r s => { r with flag := s },
      .of "path" Json.readText fun r s => { r with path := s },
      .of "strength" Json.readText fun r s => { r with strength := s }]
    {}

end InitImageFields

namespace Catalog

def toJson (catalog : Catalog) : Json :=
  .obj [("prompts_field", .str catalog.promptsField),
    ("boolean", .ofTexts catalog.boolean),
    ("schedule_suffixes", .ofTexts catalog.scheduleSuffixes),
    ("schedule_fields", .ofTexts catalog.scheduleFields),
    ("choices", .obj (catalog.choices.map fun (name, options) => (name, .ofTexts options))),
    ("init_image", catalog.initImage.toJson)]

def read : Json.Read Catalog :=
  Json.readRecord
    [.of "prompts_field" Json.readText fun r s => { r with promptsField := s },
      .of "boolean" (Json.readList Json.readText) fun r xs => { r with boolean := xs },
      .of "schedule_suffixes" (Json.readList Json.readText) fun r xs =>
        { r with scheduleSuffixes := xs },
      .of "schedule_fields" (Json.readList Json.readText) fun r xs =>
        { r with scheduleFields := xs },
      .of "choices" (Json.readSorted (Json.readList Json.readText)) fun r d =>
        { r with choices := d },
      .of "init_image" InitImageFields.read fun r fields => { r with initImage := fields }]
    {}

end Catalog

end SettingsSweep

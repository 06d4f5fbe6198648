import SettingsSweep.Config.Tree
import SettingsSweep.Catalog
import SettingsSweep.Naming.Options
import SettingsSweep.Yaml.Printer

/-!
The configuration of a project: what it holds, which values it refuses, and how it is written.
-/

set_option autoImplicit false

namespace SettingsSweep

structure OutputOptions where
  dir : String := "plot_settings"
  groupByZ : Bool := false
  deriving DecidableEq

structure Configuration where
  naming : NamingOptions := {}
  fields : Catalog := {}
  output : OutputOptions := {}
  generatedBy : String := "xyzplot"
  deriving DecidableEq

/-- A value that has the right type but cannot be used. -/
structure BadValue where
  key : String
  reason : String
  deriving DecidableEq

def BadValue.message (bad : BadValue) : String :=
  "invalid configuration value for key '" ++ bad.key ++ "': " ++ bad.reason

def hasSeparator (text : String) : Bool := text.toList.any fun c => c == '/' || c == '\\'

def separatorReason : String := "templates cannot contain path separators"

namespace Configuration

/-- The first value that cannot be used, by a fixed order of the keys. -/
def badValue? (config : Configuration) : Option BadValue :=
  let extension := config.naming.extension
  if extension ≠ "" ∧ extension.toList.head? ≠ some '.' then
    some ⟨"naming.extension", "'" ++ extension ++ "' must start with '.'"⟩
  else if config.naming.template.any hasSeparator then
    some ⟨"naming.template", separatorReason⟩
  else if Text.isBlankText config.fields.promptsField then
    some ⟨"fields.prompts_field", "must not be empty"⟩
  else if Text.isBlankText config.output.dir then some ⟨"output.dir", "must not be empty"⟩
  else none

end Configuration

namespace OutputOptions

def toJson (output : OutputOptions) : Json :=
  .obj [("dir", .str output.dir), ("group_by_z", .bool output.groupByZ)]

def toTree (output : OutputOptions) : ConfigTree :=
  .dict [("dir", .text output.dir), ("group_by_z", .bool output.groupByZ)]

def ofTree? : ConfigTree → Option OutputOptions :=
  ConfigTree.record? [.of "dir" ConfigTree.text? fun r s => { r with dir := s },
    .of "group_by_z" ConfigTree.bool? fun r b => { r with groupByZ := b }] {}

end OutputOptions

namespace NamingOptions

def toTree (options : NamingOptions) : ConfigTree :=
  .dict ((options.template.map fun t => ("template", ConfigTree.text t)).toList ++
    [("filename", .text options.filename),
      ("extension", .text options.extension),
      ("on_duplicate", .text options.onDuplicate.name)])

def templateOfTree? : ConfigTree → Option (Option String)
  | .null => some none
  | tree => tree.text?.map some

def ofTree? : ConfigTree → Option NamingOptions :=
  ConfigTree.record? [.of "template" templateOfTree? fun r t => { r with template := t },
    .of "filename" ConfigTree.text? fun r s => { r with filename := s },
    .of "extension" ConfigTree.text? fun r s => { r with extension := s },
    .of "on_duplicate" (ConfigTree.name? DuplicatePolicy.all) fun r p =>
      { r with onDuplicate := p }] {}

end NamingOptions

namespace InitImageFields

def toTree (fields : InitImageFields) : ConfigTree :=
  .dict [("flag", .text fields.flag), ("path", .text fields.path),
    ("strength", .text fields.strength)]

def ofTree? : ConfigTree → Option InitImageFields :=
  ConfigTree.record? [.of "flag" ConfigTree.text? fun r s => { r with flag := s },
    .of "path" ConfigTree.text? fun r s => { r with path := s },
    .of "strength" ConfigTree.text? fun r s => { r with strength := s }] {}

end InitImageFields

namespace Catalog

def toTree (catalog : Catalog) : ConfigTree :=
  .dict [("prompts_field", .text catalog.promptsField),
    ("boolean", .ofTexts catalog.boolean),
    ("schedule_suffixes", .ofTexts catalog.scheduleSuffixes),
    ("schedule_fields", .ofTexts catalog.scheduleFields),
    ("choices", .dict (catalog.choices.map fun (name, options) => (name, .ofTexts options))),
    ("init_image", catalog.initImage.toTree)]

def ofTree? : ConfigTree → Option Catalog :=
  ConfigTree.record? [.of "prompts_field" ConfigTree.text? fun r s => { r with promptsField := s },
    .of "boolean" ConfigTree.texts? fun r xs => { r with boolean := xs },
    .of "schedule_suffixes" ConfigTree.texts? fun r xs => { r with scheduleSuffixes := xs },
    .of "schedule_fields" ConfigTree.texts? fun r xs => { r with scheduleFields := xs },
    .of "choices" (ConfigTree.sorted? ConfigTree.texts?) fun r d => { r with choices := d },
    .of "init_image" InitImageFields.ofTree? fun r fields => { r with initImage := fields }] {}

end Catalog

namespace Configuration

def toJson (config : Configuration) : Json :=
  .obj [("naming", config.naming.toJson), ("fields", config.fields.toJson),
    ("output", config.output.toJson), ("generated_by", .str config.generatedBy)]

def entries (config : Configuration) : Dict ConfigTree :=
  [("naming", config.naming.toTree), ("fields", config.fields.toTree),
    ("output", config.output.toTree), ("generated_by", .text config.generatedBy)]

def ofTree? : ConfigTree → Option Configuration :=
  ConfigTree.record? [.of "naming" NamingOptions.ofTree? fun r n => { r with naming := n },
    .of "fields" Catalog.ofTree? fun r c => { r with fields := c },
    .of "output" OutputOptions.ofTree? fun r o => { r with output := o },
    .of "generated_by" ConfigTree.text? fun r s => { r with generatedBy := s }] {}

def toYaml (config : Configuration) : String := Yaml.toText config.entries

end Configuration

end SettingsSweep

import SettingsSweep.Json.Record
import SettingsSweep.Text.Blank

/-!
How generated files are named.
-/

set_option autoImplicit false

namespace SettingsSweep

inductive DuplicatePolicy
  | warn
  | suffix
  deriving DecidableEq

namespace DuplicatePolicy

def name : DuplicatePolicy → String
  | .warn => "warn"
  | .suffix => "suffix"

def all : List (String × DuplicatePolicy) := [("warn", .warn), ("suffix", .suffix)]

def ofText (text : String) : Except String DuplicatePolicy :=
  let lowered := Text.lower (Text.trim text)
  match Dict.find? lowered all with
  | some policy => .ok policy
  | none => .error s!"invalid duplicate policy '{lowered}': expected 'warn' or 'suffix'"

end DuplicatePolicy

/-- Without a template, one is suggested for the axes in use. -/
structure NamingOptions where
  template : Option String := none
  filename : String := "xyz_plot"
  extension : String := ".txt"
  onDuplicate : DuplicatePolicy := .warn
  deriving DecidableEq

namespace NamingOptions

def toJson (options : NamingOptions) : Json :=
  .obj ((options.template.map fun t => ("template", Json.str t)).toList ++
    [("filename", .str options.filename),
      ("extension", .str options.extension),
      ("on_duplicate", .str options.onDuplicate.name)])

def read : Json.Read NamingOptions :=
  Json.readRecord
    [.of "template" Json.readTextOrNull fun r t => { r with template := t },
      .of "filename" Json.readText fun r s => { r with filename := s },
      .of "extension" Json.readText fun r s => { r with extension := s },
      .of "on_duplicate" (Json.readName DuplicatePolicy.all) fun r p => { r with onDuplicate := p }]
    {}

end NamingOptions

end SettingsSweep

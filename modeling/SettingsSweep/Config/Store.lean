import SettingsSweep.Config.Basic
import SettingsSweep.Config.Environment
import SettingsSweep.Files.FileSystem
import SettingsSweep.Yaml.Reader

/-!
Project directories and the configuration in them. A configuration has three layers: the defaults, the
file of the project and the environment, each over the one before.
-/

set_option autoImplicit false

namespace SettingsSweep

inductive ConfigError
  | unreadable (cause : FileFault)
  /-- A file that is no YAML dictionary, or a value of the wrong type. -/
  | malformed
  | badValue (bad : BadValue)
  deriving DecidableEq

namespace ConfigError

def message : ConfigError → String
  | .unreadable cause => "failed to read config file: " ++ cause.message
  | .malformed => "invalid configuration"
  | .badValue bad => bad.message

def chain (error : ConfigError) : String :=
  match error with
  | .unreadable cause => error.message ++ ": " ++ cause.message
  | _ => error.message

end ConfigError

namespace Configuration

def fileName : String := "config.yaml"

/-- The layer of a configuration file. A blank text adds nothing. -/
def layerOfText (text : String) : Except ConfigError ConfigTree :=
  if Text.isBlankText text then .ok (.dict [])
  else match Yaml.ofText? text with
    | some entries => .ok (.dict entries)
    | none => .error .malformed

def ofLayers (file environment : ConfigTree) : Except ConfigError Configuration :=
  let defaults : ConfigTree := .dict ({} : Configuration).entries
  match ofTree? ((defaults.merge file).merge environment) with
  | none => .error .malformed
  | some config => match config.badValue? with
    | some bad => .error (.badValue bad)
    | none => .ok config

def ofText (text : String) (environment : Environment) : Except ConfigError Configuration := do
  ofLayers (← layerOfText text) environment.layer

def fileText (files : FileSystem) (directory : Location) :
    Option String → Except ConfigError String
  | none => .ok ""
  | some dir =>
    let path := Path.join dir fileName
    if files.isThere directory path then (files.readText directory path).mapError .unreadable
    else .ok ""

def load (files : FileSystem) (directory : Location) (environment : Environment)
    (dir : Option String) : Except ConfigError Configuration := do
  ofText (← fileText files directory dir) environment

def save (config : Configuration) (files : FileSystem) (directory : Location) (dir : String) :
    FileSystem × Option FileFault :=
  match files.makeDirectories directory dir with
  | (files, some fault) => (files, some fault)
  | (files, none) =>
    match files.write directory (Path.join dir fileName) config.toYaml.toUTF8 with
    | .ok files => (files, none)
    | .error fault => (files, some fault)

end Configuration

namespace Project

def dirName : String := ".xyzplot"

def variableName : String := "XYZPLOT_DIR"

def above (files : FileSystem) : Location → Option Location
  | [] => if files.isDirectoryAt [dirName] then some [dirName] else none
  | name :: outer =>
    if files.isDirectoryAt (dirName :: name :: outer) then some (dirName :: name :: outer)
    else above files outer

def findAbove (files : FileSystem) (directory : Location) (start : String) : Option String :=
  match files.locate directory start with
  | .ok location => (above files location).map Location.path
  | .error _ => none

/-- The directory that the environment names, if it is one, and else the nearest one. -/
def find (files : FileSystem) (directory : Location) (environment : Environment)
    (start : String) : Option String :=
  match environment.find? variableName with
  | some dir =>
    if files.isDirectory directory dir then some dir else findAbove files directory start
  | none => findAbove files directory start

/-- The project directory of a path, which may be that directory itself. -/
def dirFor (path : String) : String :=
  if Path.lastName? path = some dirName then path else Path.join path dirName

def ensure (files : FileSystem) (directory : Location) (path : String) :
    FileSystem × Option FileFault :=
  files.makeDirectories directory (dirFor path)

end Project

end SettingsSweep

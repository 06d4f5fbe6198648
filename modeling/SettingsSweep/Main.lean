import SettingsSweep.Command.Run
import Std.Time.DateTime.Timestamp
import Std.Time.Zoned.Database

/-!
The program. It looks at the files that a command can ask for, runs the command on what it saw, and then
makes the changes that came out.
-/

set_option autoImplicit false

namespace SettingsSweep.Main

open Command

def readEnvironment : IO Environment := do
  let bytes ← IO.FS.readBinFile "/proc/self/environ"
  let text := ((String.fromUTF8? bytes).getD "").toList
  let bindings := (Text.splitOn '\x00' text).filterMap fun binding =>
    match Grammar.splitEquals binding with
    | (name, some value) => some (String.ofList name, String.ofList value)
    | _ => none
  return bindings

/-- Without rules for the local time zone the clock shows UTC. -/
def readClock : IO Instant := do
  let now ← Std.Time.Timestamp.now
  let offset ← try
      let rules ← Std.Time.Database.defaultGetLocalZoneRules
      pure (rules.timezoneAt now).offset.second.toInt
    catch _ => pure 0
  return ⟨now.toSecondsSinceUnixEpoch.toInt, offset⟩

def look (location : Location) : IO (Option Entry) := do
  try
    let path ← IO.FS.realPath location.path
    if ← path.isDir then return some .directory
    else return some (.file (← IO.FS.readBinFile path))
  catch _ => return none

def seeAt (files : FileSystem) (location : Location) : IO FileSystem := do
  match files.entryAt? location, ← look location with
  | none, some entry => return files.put location entry
  | _, _ => return files

def seeAlong (files : FileSystem) (directory : Location) (path : String) : IO FileSystem := do
  let mut files := files
  let mut location := FileSystem.startOf directory path
  for name in Path.names path do
    location := if name = "." then location else if name = ".." then location.tail
      else name :: location
    files ← seeAt files location
  return files

def pathsOf (session : Session) (invocation : Invocation) : List String :=
  let projects := (session.environment.find? Project.variableName).toList ++
    invocation.global.configDir.toList ++
    (Path.upwards session.directory.path).map fun above => Path.join above Project.dirName
  let bases := match invocation.action with
    | some (.generate flags) => [flags.base]
    | some (.params base _) => [base]
    | some (.name base _ _) => base.toList
    | _ => []
  projects.flatMap (fun dir => [Path.join dir Configuration.fileName,
    Path.join (Path.join dir Project.dirName) Configuration.fileName]) ++ bases

def seeAll (session : Session) (paths : List String) : IO Session := do
  let mut files := session.files
  for path in session.directory.path :: paths do
    files ← seeAlong files session.directory path
  return { session with files := files }

def changed (before after : FileSystem) : List (Location × Entry) :=
  after.entries.filter fun (location, entry) =>
    match before.entryAt? location, entry with
    | some .directory, .directory => false
    | some (.file old), .file new => old.data ≠ new.data
    | _, _ => true

def change : Location × Entry → IO Unit
  | (location, .directory) => IO.FS.createDir location.path
  | (location, .file bytes) => IO.FS.writeBinFile location.path bytes

def usageText : String :=
  "Usage: xyzplot [--json] [-v] [-q] [--config-dir DIR] COMMAND\n" ++
    "Commands: generate, parse, params, name, config, version, completion, help\n"

def reportUsage : UsageError → IO UInt32
  | .help | .missingCommandHelp => do IO.print usageText; return 0
  | .version => do IO.println ("xyzplot " ++ versionText); return 0
  | _ => do IO.eprint usageText; return 2

def reportFailure (session : Session) (global : GlobalFlags) (failure : Failure) : IO UInt32 := do
  if global.json then
    IO.eprintln (Json.obj [("error", .str failure.message)]).pretty
  else IO.eprintln (session.palette.fail "Error:" ++ " " ++ failure.message)
  return 1

def send (print : Print) : IO Bool := do
  let stream ← match print.stream with
    | .stdout => IO.getStdout
    | .stderr => IO.getStderr
  try
    stream.putStr print.text
    stream.flush
    return true
  catch _ => return false

def execute (invocation : Invocation) : IO UInt32 := do
  let directory := (Path.names (← IO.currentDir).toString).reverse
  let terminal ← (← IO.getStdout).isTty
  let blank : Session :=
    { files := {}, directory := directory, environment := ← readEnvironment, now := ← readClock,
      terminal := terminal }
  let seen ← seeAll blank (pathsOf blank invocation)
  -- A first run tells where the command writes, so that those places can be looked at too.
  let targets := changed seen.files (run seen invocation).files
  let session ← seeAll seen (targets.map fun (location, _) => location.path)
  let outcome := run session invocation
  (changed session.files outcome.files).forM change
  match (← outcome.deliver send).failure with
  | none => return 0
  | some .noCommand => do IO.print usageText; return 0
  | some (.cannotPrint stream) =>
    let _ ← send { stream := .stderr, text := (Failure.cannotPrint stream).message ++ "\n" }
    return 101
  | some failure => reportFailure session invocation.global failure

end SettingsSweep.Main

def main (args : List String) : IO UInt32 :=
  match SettingsSweep.Command.Invocation.ofArguments args with
  | .error error => SettingsSweep.Main.reportUsage error
  | .ok invocation => SettingsSweep.Main.execute invocation

import SettingsSweep.Command.Session

/-!
Commands on the configuration of a project.
-/

set_option autoImplicit false

namespace SettingsSweep.Command

def initTarget (session : Session) (global : GlobalFlags) : String :=
  global.configDir.getD session.directory.path

def initFile (session : Session) (global : GlobalFlags) : String :=
  Path.join (Project.dirFor (initTarget session global)) Configuration.fileName

def initReport (session : Session) (global : GlobalFlags) (path : String) : List Print :=
  if global.json then [.json (.obj [("path", .str path), ("created", .bool true)])]
  else if global.quiet then []
  else [.line (session.palette.passIcon ++ " Created " ++ path)]

/-- Writes the default configuration. One that is there is only written over by force. -/
def configInit (session : Session) (global : GlobalFlags) (force : Bool) : Outcome :=
  let target := initTarget session global
  let path := initFile session global
  match Project.ensure session.files session.directory target with
  | (files, some fault) => { files := files, failure := some (.makeProject target fault) }
  | (files, none) =>
    if files.isThere session.directory path && !force then
      { files := files, failure := some (.alreadyConfigured path) }
    else
      match ({} : Configuration).save files session.directory (Project.dirFor target) with
      | (files, some fault) => { files := files, failure := some (.writeConfig path fault) }
      | (files, none) => { files := files, prints := initReport session global path }

def configShow (session : Session) (global : GlobalFlags) : Outcome :=
  session.showing do
    let config ← session.loadConfig global
    .ok (if global.json then session.printJson config.toJson
      else session.print [{ text := config.toYaml }])

def configPath (session : Session) (global : GlobalFlags) : Outcome :=
  let dir := session.projectDir? global
  if global.json then
    session.printJson (.obj [("path", (dir.map Json.str).getD .null)])
  else match dir with
    | some dir => session.print [.line dir]
    | none => session.fail .noProject

end SettingsSweep.Command

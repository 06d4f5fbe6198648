import SettingsSweep.Command.Project
import SettingsSweep.Command.Sweep

/-!
Running a command.
-/

set_option autoImplicit false

namespace SettingsSweep.Command

def run (session : Session) (invocation : Invocation) : Outcome :=
  let global := invocation.global
  match invocation.action with
  | none => session.fail .noCommand
  | some (.generate flags) => generate session global flags
  | some (.parse expressions field) => parse session global expressions field
  | some (.params base kind) => params session global base kind
  | some (.name base axes naming) => name session global base axes naming
  | some (.configInit force) => configInit session global force
  | some .configShow => configShow session global
  | some .configPath => configPath session global
  | some .version => version session global
  | some (.completion shell) => session.fail (.noCompletion shell)

end SettingsSweep.Command

import SettingsSweep.Command.Invocation
import SettingsSweep.Command.Palette
import SettingsSweep.Config.Store
import SettingsSweep.Document.Base
import SettingsSweep.Sweep.Request
import SettingsSweep.Time

/-!
What a command finds around it, how it can fail, and what comes out of it.
-/

set_option autoImplicit false

namespace SettingsSweep.Command

structure Session where
  files : FileSystem
  directory : Location
  environment : Environment
  now : Instant
  terminal : Bool := false

inductive Stream
  | stdout
  | stderr
  deriving DecidableEq

def Stream.name : Stream → String
  | .stdout => "stdout"
  | .stderr => "stderr"

/-- A text that is printed at once. For a lenient one it is no error that its reader is gone. -/
structure Print where
  stream : Stream := .stdout
  text : String
  lenient : Bool := false

namespace Print

def line (text : String) : Print := { text := text ++ "\n" }

def warning (palette : Palette) (message : String) : Print :=
  { stream := .stderr, text := palette.warnIcon ++ " " ++ message ++ "\n" }

def json (value : Json) : Print := { text := value.pretty ++ "\n", lenient := true }

/-- Prints in order, up to the first text that does not get through and is not lenient. -/
def sendAll {m : Type → Type} [Monad m] (send : Print → m Bool) : List Print → m (Option Stream)
  | [] => pure none
  | print :: rest => do
    if (← send print) || print.lenient then sendAll send rest else pure (some print.stream)

end Print

inductive AssignmentFault
  | noEquals
  | emptyKey
  deriving DecidableEq

def AssignmentFault.message : AssignmentFault → String
  | .noEquals => "expected KEY=VALUE"
  | .emptyKey => "key must not be empty"

inductive Failure
  | noCommand
  | noCompletion (shell : String)
  | config (dir : Option String) (error : ConfigError)
  | unreadableBase (path : String) (fault : FileFault)
  | badBase (path : String) (error : BaseError)
  | unknownKind (text : String)
  | badPromptMode (axis : AxisName) (reason : String)
  | badAnimationMode (reason : String)
  | badDuplicatePolicy (reason : String)
  | separatorInTemplate
  | badAssignment (flag text : String) (fault : AssignmentFault)
  | sweep (error : SweepError)
  | makeDirectory (path : String) (fault : FileFault)
  | writeFile (path : String) (fault : FileFault)
  | makeProject (path : String) (fault : FileFault)
  | alreadyConfigured (path : String)
  | writeConfig (path : String) (fault : FileFault)
  | noProject
  | cannotPrint (stream : Stream)

inductive Stage
  | reading
  | writing
  | printing
  deriving DecidableEq

namespace Failure

def configCause (fault : FileFault) : String := (ConfigError.unreadable fault).chain

def baseCause : BaseError → String
  | .notJson fault text =>
    (BaseError.notJson fault text).message ++ ": " ++ fault.message text
  | error => error.message

/-- The message, each cause after what it caused. -/
def message : Failure → String
  | .noCommand => "no command"
  | .noCompletion shell => "no completions for " ++ shell
  | .config none error => "failed to load configuration: " ++ error.chain
  | .config (some dir) error =>
    "failed to load configuration from " ++ dir ++ ": " ++ error.chain
  | .unreadableBase path fault =>
    "failed to load base settings " ++ path ++ ": failed to read settings file " ++ path ++ ": " ++
      fault.message ++ ": " ++ fault.message
  | .badBase path error => "failed to load base settings " ++ path ++ ": " ++ baseCause error
  | .unknownKind text =>
    "unknown field kind '" ++ text ++
      "': expected one of boolean, choice, prompts, schedule, numeric"
  | .badPromptMode axis reason => axis.title ++ ": " ++ reason
  | .badAnimationMode reason => reason
  | .badDuplicatePolicy reason => reason
  | .separatorInTemplate => separatorReason
  | .badAssignment flag text fault =>
    "invalid " ++ flag ++ " value '" ++ text ++ "': " ++ fault.message
  | .sweep error => error.message
  | .makeDirectory path fault => "failed to create directory " ++ path ++ ": " ++ fault.message
  | .writeFile path fault => "failed to write " ++ path ++ ": " ++ fault.message
  | .makeProject path fault => "failed to create " ++ path ++ ": " ++ configCause fault
  | .alreadyConfigured path => path ++ " already exists\nHint: use --force to overwrite it"
  | .writeConfig path fault => "failed to write " ++ path ++ ": " ++ configCause fault
  | .noProject => "no .xyzplot directory found (run 'xyzplot config init' first)"
  | .cannotPrint stream => "failed printing to " ++ stream.name ++ ": Broken pipe (os error 32)"

def stage : Failure → Stage
  | .makeDirectory .. | .writeFile .. | .makeProject .. | .writeConfig .. => .writing
  | .cannotPrint _ => .printing
  | _ => .reading

end Failure

/-- What a command leaves behind, and what it has to print once that is done. -/
structure Outcome where
  files : FileSystem
  prints : List Print := []
  failure : Option Failure := none

namespace Outcome

def textOn (outcome : Outcome) (stream : Stream) : String :=
  String.join ((outcome.prints.filter (·.stream = stream)).map (·.text))

def stdout (outcome : Outcome) : String := outcome.textOn .stdout

def stderr (outcome : Outcome) : String := outcome.textOn .stderr

/-- A stream whose reader is gone is the failure of a command that is done otherwise. -/
def stoppedBy (outcome : Outcome) : Option Stream → Outcome
  | none => outcome
  | some stream => { outcome with failure := some (.cannotPrint stream) }

def deliver {m : Type → Type} [Monad m] (send : Print → m Bool) (outcome : Outcome) : m Outcome :=
  outcome.stoppedBy <$> Print.sendAll send outcome.prints

end Outcome

namespace Session

def palette (session : Session) : Palette := ⟨showsColor session.environment session.terminal⟩

def fail (session : Session) (failure : Failure) : Outcome :=
  { files := session.files, failure := some failure }

def print (session : Session) (prints : List Print) : Outcome :=
  { files := session.files, prints := prints }

def printJson (session : Session) (value : Json) : Outcome := session.print [.json value]

def printTable (session : Session) (text : String) : Outcome :=
  session.print [{ text := text, lenient := true }]

def showing (session : Session) : Except Failure Outcome → Outcome
  | .ok outcome => outcome
  | .error failure => session.fail failure

def projectDir? (session : Session) (global : GlobalFlags) : Option String :=
  match global.configDir with
  | some dir => some dir
  | none =>
    Project.find session.files session.directory session.environment session.directory.path

def loadConfig (session : Session) (global : GlobalFlags) : Except Failure Configuration :=
  let dir := session.projectDir? global
  (Configuration.load session.files session.directory session.environment dir).mapError
    (.config dir)

def loadBase (session : Session) (path : String) : Except Failure Document :=
  match session.files.readText session.directory path with
  | .error fault => .error (.unreadableBase path fault)
  | .ok text => (Document.ofText text).mapError (.badBase path)

def warnings (session : Session) (warnings : List Warning) : List Print :=
  warnings.map fun w => .warning session.palette w.message

end Session

end SettingsSweep.Command

import SettingsSweep.Dict

/-!
Reading command line arguments by a grammar of commands. Options may stand anywhere after their command,
with their value in the next argument or after an equals sign; two hyphens alone end the options.
-/

set_option autoImplicit false

namespace SettingsSweep.Command

inductive OptionKind
  | flag
  | one
  | many
  | help
  | version
  deriving DecidableEq

structure OptionForm where
  name : String
  short : Option Char := none
  kind : OptionKind := .one
  isPath : Bool := false

structure PositionalForm where
  name : String
  required : Bool := true
  many : Bool := false
  isPath : Bool := false

structure Grammar where
  options : List OptionForm := []
  positionals : List PositionalForm := []
  commands : List (String × Grammar) := []
  needsCommand : Bool := false
  /-- Pairs that exclude each other. -/
  conflicts : List (String × String) := []
  /-- Options with what they need beside them. -/
  requires : List (String × String) := []

/-- Why arguments are not run as a command. Asking for help or the version is among the reasons. -/
inductive UsageError
  | unknownArgument
  | argumentConflict
  | missingArgument
  | invalidValue
  | tooManyValues
  | invalidCommand
  | missingCommand
  | missingCommandHelp
  | help
  | version
  deriving DecidableEq

/-- What was given for a command, with the values of each option in their order. -/
structure Given where
  values : Dict (List String) := []
  command : Option (String × Given) := none

structure Pending where
  name : String
  values : List String
  deriving DecidableEq

inductive Position
  | free
  | inOption
  | inPositional
  deriving DecidableEq

structure Reading where
  values : Dict (List String) := []
  pending : Option Pending := none
  position : Position := .free
  filled : Nat := 0
  onlyPositionals : Bool := false

structure ValueForm where
  many : Bool
  isPath : Bool

namespace Grammar

def valueForm? (grammar : Grammar) (name : String) : Option ValueForm :=
  match grammar.options.find? (·.name = name) with
  | some o => some ⟨o.kind = .many, o.isPath⟩
  | none => (grammar.positionals.find? (·.name = name)).map fun p => ⟨p.many, p.isPath⟩

/-- Takes the values of an argument, unless there are none or it came before. -/
def take (grammar : Grammar) (values : Dict (List String)) (pending : Pending) :
    Except UsageError (Dict (List String)) :=
  match grammar.valueForm? pending.name with
  | none => .error .unknownArgument
  | some form =>
    if pending.values.isEmpty then .error .invalidValue
    else if form.many then
      .ok (values.put pending.name ((values.find? pending.name).getD [] ++ pending.values))
    else if values.has pending.name then .error .argumentConflict
    else if form.isPath && "" ∈ pending.values then .error .invalidValue
    else .ok (values.put pending.name pending.values)

def settle (grammar : Grammar) (reading : Reading) : Except UsageError Reading :=
  match reading.pending with
  | none => .ok reading
  | some pending => match grammar.take reading.values pending with
    | .ok values => .ok { reading with values := values, pending := none }
    | .error error => .error error

def setFlag (grammar : Grammar) (reading : Reading) (form : OptionForm) :
    Except UsageError Reading := do
  let reading ← grammar.settle reading
  match form.kind with
  | .help => .error .help
  | .version => .error .version
  | _ =>
    if reading.values.has form.name then .error .argumentConflict
    else .ok { reading with values := reading.values.put form.name [], position := .free }

def takesValue (form : OptionForm) : Bool := form.kind = .one || form.kind = .many

def splitEquals : List Char → List Char × Option (List Char)
  | [] => ([], none)
  | c :: rest =>
    if c = '=' then ([], some rest)
    else
      let (name, value) := splitEquals rest
      (c :: name, value)

def readLong (grammar : Grammar) (reading : Reading) (text : List Char) :
    Except UsageError Reading := do
  let (name, value) := splitEquals text
  match grammar.options.find? (·.name = String.ofList name), value with
  | none, _ => .error .unknownArgument
  | some form, some value =>
    if takesValue form then
      let reading ← grammar.settle reading
      let values ← grammar.take reading.values ⟨form.name, [String.ofList value]⟩
      .ok { reading with values := values, position := .free }
    else .error .tooManyValues
  | some form, none =>
    if takesValue form then
      let reading ← grammar.settle reading
      .ok { reading with pending := some ⟨form.name, []⟩, position := .inOption }
    else grammar.setFlag reading form

def readShort (grammar : Grammar) (reading : Reading) : List Char → Except UsageError Reading
  | [] => .ok reading
  | c :: rest => match grammar.options.find? (·.short = some c) with
    | none => .error .unknownArgument
    | some form => do readShort grammar (← grammar.setFlag reading form) rest

def addValue (reading : Reading) (name value : String) : Reading :=
  match reading.pending with
  | some pending =>
    if pending.name = name then
      { reading with pending := some ⟨name, pending.values ++ [value]⟩ }
    else { reading with pending := some ⟨name, [value]⟩ }
  | none => { reading with pending := some ⟨name, [value]⟩ }

def readPositional (grammar : Grammar) (reading : Reading) (arg : String) :
    Except UsageError Reading :=
  match grammar.positionals[reading.filled]? with
  | none =>
    let isCommand := Dict.has arg grammar.commands
    if grammar.commands.isEmpty || (reading.onlyPositionals && isCommand) then
      .error .unknownArgument
    else .error .invalidCommand
  | some form =>
    let continues := form.many && (reading.pending.map (·.name)) = some form.name
    match (if continues then .ok reading else grammar.settle reading) with
    | .error error => .error error
    | .ok reading =>
      let reading := addValue reading form.name arg
      .ok (if form.many then { reading with position := .inPositional }
        else { reading with position := .free, filled := reading.filled + 1 })

def readArgument (grammar : Grammar) (reading : Reading) (arg : String) :
    Except UsageError Reading :=
  if reading.onlyPositionals then grammar.readPositional reading arg
  else match arg.toList with
    | ['-', '-'] => .ok { reading with onlyPositionals := true }
    | '-' :: '-' :: text => grammar.readLong reading text
    | '-' :: c :: text => grammar.readShort reading (c :: text)
    | _ =>
      match reading.position, reading.pending with
      | .inOption, some pending =>
        .ok { addValue reading pending.name arg with position := .free }
      | _, _ => grammar.readPositional reading arg

/-- Whether the absence of an argument is excused: another that excludes it is there. -/
def isExcused (grammar : Grammar) (values : Dict (List String)) (name : String) : Bool :=
  grammar.conflicts.any fun (a, b) =>
    (a = name && values.has b) || (b = name && values.has a)

def isMissing (grammar : Grammar) (values : Dict (List String)) (name : String) : Bool :=
  !values.has name && !grammar.isExcused values name

def fault? (grammar : Grammar) (given : Given) : Option UsageError :=
  if grammar.needsCommand && given.command.isNone then
    some (if given.values.isEmpty then .missingCommandHelp else .missingCommand)
  else if grammar.conflicts.any fun (a, b) => given.values.has a && given.values.has b then
    some .argumentConflict
  else if (grammar.positionals.any fun p => p.required && grammar.isMissing given.values p.name) ||
      grammar.requires.any fun (a, b) => given.values.has a && grammar.isMissing given.values b then
    some .missingArgument
  else none

def finish (grammar : Grammar) (reading : Reading) (command : Option (String × Given)) :
    Except UsageError Given := do
  let reading ← grammar.settle reading
  let given : Given := ⟨reading.values, command⟩
  match grammar.fault? given with
  | some error => .error error
  | none => .ok given

def helpFor (grammar : Grammar) : List String → UsageError
  | [] => .help
  | name :: names =>
    if name = "help" then helpFor grammar names
    else match grammar.commands.lookup name with
      | some sub => helpFor sub names
      | none => .invalidCommand

def read (grammar : Grammar) (reading : Reading) : List String → Except UsageError Given
  | [] => grammar.finish reading none
  | arg :: args =>
    let command :=
      if reading.onlyPositionals || reading.position ≠ .free then none
      else grammar.commands.lookup arg
    match command with
    | some sub => do
      let given ← read sub {} args
      grammar.finish reading (some (arg, given))
    | none =>
      let asksHelp := arg = "help" && !grammar.commands.isEmpty && !reading.onlyPositionals &&
        reading.position = .free
      if asksHelp then .error (grammar.helpFor args)
      else do read grammar (← grammar.readArgument reading arg) args

end Grammar

namespace Given

/-- The values of an argument that may be given with any command. The innermost counts. -/
def global? (name : String) : Given → Option (List String)
  | ⟨values, none⟩ => values.find? name
  | ⟨values, some (_, given)⟩ => match global? name given with
    | some found => some found
    | none => values.find? name

def has (given : Given) (name : String) : Bool := given.values.has name

def one? (given : Given) (name : String) : Option String :=
  (given.values.find? name).bind List.head?

def many (given : Given) (name : String) : List String := (given.values.find? name).getD []

end Given

end SettingsSweep.Command

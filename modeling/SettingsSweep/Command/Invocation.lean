import SettingsSweep.Command.Arguments

/-!
The commands of the program and what they are given, which is Unicode text throughout.
-/

set_option autoImplicit false

namespace SettingsSweep.Command

structure GlobalFlags where
  json : Bool := false
  quiet : Bool := false
  configDir : Option String := none

structure AxisFlags where
  field : Option String := none
  values : List String := []
  choices : List String := []
  promptMode : Option String := none

structure NamingFlags where
  template : Option String := none
  filename : Option String := none
  extension : Option String := none
  onDuplicate : Option String := none

structure AxesFlags where
  x : AxisFlags := {}
  y : AxisFlags := {}
  z : AxisFlags := {}

structure GenerateFlags where
  base : String
  axes : AxesFlags := {}
  set : List String := []
  animationMode : Option String := none
  initImage : Option String := none
  strength : Option String := none
  noInit : Bool := false
  prompt : Option String := none
  negative : Option String := none
  keyframes : List String := []
  naming : NamingFlags := {}
  out : Option String := none
  groupByZ : Bool := false
  dryRun : Bool := false

inductive Action
  | generate (flags : GenerateFlags)
  | parse (expressions : List String) (field : Option String)
  | params (base : String) (kind : Option String)
  | name (base : Option String) (axes : AxesFlags) (naming : NamingFlags)
  | configInit (force : Bool)
  | configShow
  | configPath
  | version
  | completion (shell : String)

structure Invocation where
  global : GlobalFlags
  /-- Without a command there is nothing to do. -/
  action : Option Action

namespace Invocation

def globalOptions : List OptionForm :=
  [{ name := "json", kind := .flag },
    { name := "verbose", short := some 'v', kind := .flag },
    { name := "quiet", short := some 'q', kind := .flag },
    { name := "config-dir", isPath := true },
    { name := "help", short := some 'h', kind := .help },
    { name := "version", short := some 'V', kind := .version }]

def axisOptions (letter : String) : List OptionForm :=
  [{ name := letter },
    { name := letter ++ "-values", kind := .many },
    { name := letter ++ "-choice", kind := .many },
    { name := letter ++ "-prompt-mode" }]

def axesOptions : List OptionForm := axisOptions "x" ++ axisOptions "y" ++ axisOptions "z"

def namingOptions : List OptionForm :=
  [{ name := "template" }, { name := "filename" }, { name := "extension" },
    { name := "on-duplicate" }]

def generateGrammar : Grammar where
  options := globalOptions ++ axesOptions ++ namingOptions ++
    [{ name := "set", kind := .many },
      { name := "animation-mode" },
      { name := "init-image" },
      { name := "strength" },
      { name := "no-init", kind := .flag },
      { name := "prompt" },
      { name := "negative" },
      { name := "keyframe", kind := .many },
      { name := "out", isPath := true },
      { name := "group-by-z", kind := .flag },
      { name := "dry-run", kind := .flag }]
  positionals := [{ name := "BASE", isPath := true }]
  conflicts := [("init-image", "no-init"), ("prompt", "keyframe")]
  requires := [("strength", "init-image"), ("negative", "prompt")]

def parseGrammar : Grammar where
  options := globalOptions ++ [{ name := "field" }]
  positionals := [{ name := "EXPRESSIONS", many := true }]

def paramsGrammar : Grammar where
  options := globalOptions ++ [{ name := "kind" }]
  positionals := [{ name := "BASE", isPath := true }]

def nameGrammar : Grammar where
  options := globalOptions ++ axesOptions ++ namingOptions
  positionals := [{ name := "BASE", required := false, isPath := true }]

def plainGrammar : Grammar where
  options := globalOptions

def configGrammar : Grammar where
  options := globalOptions
  commands :=
    [("init", { options := globalOptions ++ [{ name := "force", kind := .flag }] }),
      ("show", plainGrammar), ("path", plainGrammar)]
  needsCommand := true

def completionGrammar : Grammar where
  options := globalOptions
  commands := ["bash", "zsh", "fish", "powershell"].map fun shell => (shell, plainGrammar)
  needsCommand := true

def grammar : Grammar where
  options := globalOptions
  commands :=
    [("generate", generateGrammar), ("parse", parseGrammar), ("params", paramsGrammar),
      ("name", nameGrammar), ("config", configGrammar), ("version", plainGrammar),
      ("completion", completionGrammar)]

def axisFlags (given : Given) (letter : String) : AxisFlags :=
  ⟨given.one? letter, given.many (letter ++ "-values"), given.many (letter ++ "-choice"),
    given.one? (letter ++ "-prompt-mode")⟩

def axesFlags (given : Given) : AxesFlags :=
  ⟨axisFlags given "x", axisFlags given "y", axisFlags given "z"⟩

def namingFlags (given : Given) : NamingFlags :=
  ⟨given.one? "template", given.one? "filename", given.one? "extension",
    given.one? "on-duplicate"⟩

def generateFlags (given : Given) : GenerateFlags where
  base := (given.one? "BASE").getD ""
  axes := axesFlags given
  set := given.many "set"
  animationMode := given.one? "animation-mode"
  initImage := given.one? "init-image"
  strength := given.one? "strength"
  noInit := given.has "no-init"
  prompt := given.one? "prompt"
  negative := given.one? "negative"
  keyframes := given.many "keyframe"
  naming := namingFlags given
  out := given.one? "out"
  groupByZ := given.has "group-by-z"
  dryRun := given.has "dry-run"

def configAction? (given : Given) : Option Action :=
  match given.command with
  | some ("init", init) => some (.configInit (init.has "force"))
  | some ("show", _) => some .configShow
  | some ("path", _) => some .configPath
  | _ => none

def action? (given : Given) : Option Action :=
  match given.command with
  | some ("generate", given) => some (.generate (generateFlags given))
  | some ("parse", given) => some (.parse (given.many "EXPRESSIONS") (given.one? "field"))
  | some ("params", given) =>
    some (.params ((given.one? "BASE").getD "") (given.one? "kind"))
  | some ("name", given) =>
    some (.name (given.one? "BASE") (axesFlags given) (namingFlags given))
  | some ("config", given) => configAction? given
  | some ("version", _) => some .version
  | some ("completion", given) => given.command.map fun (shell, _) => .completion shell
  | _ => none

def ofArguments (args : List String) : Except UsageError Invocation := do
  let given ← grammar.read {} args
  let global : GlobalFlags :=
    ⟨(given.global? "json").isSome, (given.global? "quiet").isSome,
      (given.global? "config-dir").bind List.head?⟩
  .ok ⟨global, action? given⟩

end Invocation

end SettingsSweep.Command

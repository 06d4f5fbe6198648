import SettingsSweep.Proofs.Command.Plan
import SettingsSweep.Proofs.Sweep.KeyframeText
import SettingsSweep.Proofs.Sweep.Preview

/-!
What is shown for some expressions over a field is what a sweep takes from them: the two commands fill an axis by rules of
their own, but differ only where resolving does not look.
-/

set_option autoImplicit false

namespace SettingsSweep

namespace Axis

variable {axis other : Axis} {catalog : Catalog}

theorem hasField_iff : axis.hasField = true ↔ axis.path ≠ "" := by
  refine ⟨path_ne_empty, fun field => ?_⟩
  cases blank : Text.isBlankText axis.field with
  | false => rw [hasField, blank]; rfl
  | true =>
    have empty : Text.trimChars axis.field.toList = [] :=
      Text.trimChars_eq_nil_iff.2 (List.all_eq_true.1 blank)
    exact absurd (congrArg String.ofList empty) field

/-- A choice field is resolved from the picked options alone, any other field from the rows alone. -/
theorem resolve_congr (name : axis.name = other.name) (path : axis.path = other.path)
    (rows : catalog.classify axis.path ≠ .choice → axis.expressions = other.expressions)
    (options : axis.path ≠ "" → catalog.classify axis.path = .choice → axis.choices = other.choices) :
    axis.resolve catalog = other.resolve catalog := by
  have field : axis.hasField = other.hasField := by
    rw [Bool.eq_iff_iff, hasField_iff, hasField_iff, path]
  unfold resolve
  rw [← field, ← name, ← path]
  dsimp only
  split
  · next some =>
    have same : axis.contributions catalog = other.contributions catalog := by
      have options := options (hasField_iff.1 some)
      unfold contributions
      rw [← name, ← path]
      cases kind : catalog.classify axis.path with
      | choice => simp only [options kind]
      | boolean => simp only [rows (by simp [kind])]
      | prompts => simp only [rows (by simp [kind])]
      | schedule => simp only [rows (by simp [kind])]
      | numeric => simp only [rows (by simp [kind])]
    rw [same]
  · rfl

end Axis

namespace Command

theorem AxisFlags.toAxis_eq_ok_iff {flags : AxisFlags} {name : AxisName} {catalog : Catalog} {axis : Axis} :
    flags.toAxis name catalog = .ok axis ↔ ∃ mode, flags.mode name = .ok mode ∧
      axis = { name := name, field := flags.path, expressions := flags.values,
               choices := flags.options catalog, promptMode := mode } := by
  unfold toAxis
  cases flags.mode name with
  | error failure => simp [bind, Except.bind]
  | ok mode => simp [bind, Except.bind, eq_comm]

def AxisFlags.ofRows (field : String) (rows : List String) (promptMode : Option String) : AxisFlags :=
  { field := some field, values := rows, promptMode := promptMode }

variable {field : String} {rows : List String} {promptMode : Option String} {catalog : Catalog}

theorem resolve_of_rows {axis : Axis}
    (built : (AxisFlags.ofRows field rows promptMode).toAxis .x catalog = .ok axis) :
    axis.resolve catalog = (axisOfExpressions field rows).resolve catalog := by
  obtain ⟨mode, -, rfl⟩ := AxisFlags.toAxis_eq_ok_iff.1 built
  have path : Text.trim (Text.trim field) = Text.trim field := Schedule.trim_trim field
  refine Axis.resolve_congr rfl path (fun _ => rfl) fun some choice => ?_
  change Text.trim (Text.trim field) ≠ "" at some
  change catalog.classify (Text.trim (Text.trim field)) = .choice at choice
  rw [path] at some choice
  exact if_pos ⟨rfl, some, choice⟩

theorem GenerateFlags.resolve_of_plan {flags : GenerateFlags} {session : Session} {global : GlobalFlags} {plan : SweepPlan}
    (planned : flags.plan session global = .ok plan) : ∃ config axis, session.loadConfig global = .ok config ∧
      flags.axes.x.toAxis .x config.fields = .ok axis ∧ plan.report.axes.x = axis.resolve config.fields := by
  obtain ⟨config, base, request, naming, loaded, -, asked, -, run, -⟩ := plan_eq_ok planned
  unfold GenerateFlags.request at asked
  obtain ⟨choice, chosen, asked⟩ := exists_of_bind_eq_ok asked
  obtain ⟨common, -, asked⟩ := exists_of_bind_eq_ok asked
  obtain ⟨prompts, -, asked⟩ := exists_of_bind_eq_ok asked
  obtain rfl := Except.ok.inj asked
  unfold AxisChoice.ofFlags at chosen
  obtain ⟨x, built, chosen⟩ := exists_of_bind_eq_ok chosen
  obtain ⟨y, -, chosen⟩ := exists_of_bind_eq_ok chosen
  have first : choice.x = x := by
    cases given : flags.axes.z.field with
    | none =>
      rw [given] at chosen
      exact congrArg AxisChoice.x (Except.ok.inj chosen).symm
    | some field =>
      rw [given] at chosen
      obtain ⟨z, -, chosen⟩ := exists_of_bind_eq_ok chosen
      exact congrArg AxisChoice.x (Except.ok.inj chosen).symm
  exact ⟨config, x, loaded, built, by rw [SweepRequest.axes_eq run, ← first]; rfl⟩

theorem GenerateFlags.exists_plan {flags : GenerateFlags} {session : Session} {global : GlobalFlags}
    {config : Configuration} {base : Document} {request : SweepRequest} {naming : NamingOptions} {report : SweepReport}
    (loaded : session.loadConfig global = .ok config) (based : session.loadBase flags.base = .ok base)
    (asked : flags.request base config.fields = .ok request) (named : flags.naming.over config.naming = .ok naming)
    (run : request.generate ⟨config.fields, naming, config.generatedBy⟩ session.now = .ok report) :
    ∃ plan, flags.plan session global = .ok plan :=
  ⟨_, plan_of_steps loaded based asked named run⟩

/-- Rows for a field are shown as they are swept, whatever the prompt mode is. -/
theorem shown_as_swept (field : String) (rows : List String) (promptMode : Option String) :
    (∀ (catalog : Catalog) (mode : PromptMode), (AxisFlags.ofRows field rows promptMode).mode .x = .ok mode →
      ∃ axis, (AxisFlags.ofRows field rows promptMode).toAxis .x catalog = .ok axis ∧ axis.promptMode = mode ∧
        axis.resolve catalog = (axisOfExpressions field rows).resolve catalog) ∧
    ∀ (session : Session) (global : GlobalFlags) (flags : GenerateFlags) (plan : SweepPlan),
      flags.axes.x = AxisFlags.ofRows field rows promptMode → flags.plan session global = .ok plan →
        parse session global rows (some field) = showAxis session global plan.report.axes.x := by
  refine ⟨fun catalog mode valid => ?_, fun session global flags plan given planned => ?_⟩
  · have built := (@AxisFlags.toAxis_eq_ok_iff _ _ catalog _).2 ⟨mode, valid, rfl⟩
    exact ⟨_, built, rfl, resolve_of_rows built⟩
  · obtain ⟨config, axis, loaded, built, swept⟩ := GenerateFlags.resolve_of_plan planned
    rw [given] at built
    rw [swept, resolve_of_rows built, parse, loaded]
    rfl

def samplerSession : Session where
  files := ⟨[(["sweeps"], .directory), (["base.json", "sweeps"], .file "\x7b\x7d".toUTF8)]⟩
  directory := ["sweeps"]
  environment := []
  now := ⟨0, 0⟩

def samplerFlags : GenerateFlags where
  base := "base.json"
  axes := { x := .ofRows " sampler " ["euler, ddim", "klms,euler"] (some "Override")
            y := .ofRows "steps" ["10-20 (+5)"] none }

def samplerRequest : SweepRequest where
  base := []
  x := { name := .x, field := "sampler", expressions := ["euler, ddim", "klms,euler"],
         choices := ["euler", "ddim", "klms", "euler"], promptMode := .override }
  y := { name := .y, field := "steps", expressions := ["10-20 (+5)"] }

theorem shown_as_swept_samplers : ∃ (axis : Axis) (plan : SweepPlan),
    (AxisFlags.ofRows " sampler " ["euler, ddim", "klms,euler"] (some "Override")).mode .x = .ok .override ∧
      (AxisFlags.ofRows " sampler " ["euler, ddim", "klms,euler"] (some "Override")).toAxis .x {} = .ok axis ∧
      axis.promptMode = .override ∧
      axis.resolve {} = (axisOfExpressions " sampler " ["euler, ddim", "klms,euler"]).resolve {} ∧
      axis.resolve {} = ⟨.x, "sampler", .choice, [.text "euler", .text "ddim", .text "klms"],
        [.unknownChoice .x "sampler" "klms"]⟩ ∧
      samplerFlags.plan samplerSession {} = .ok plan ∧
      parse samplerSession {} ["euler, ddim", "klms,euler"] (some " sampler ") =
        showAxis samplerSession {} plan.report.axes.x := by
  obtain ⟨alike, shown⟩ := shown_as_swept " sampler " ["euler, ddim", "klms,euler"] (some "Override")
  obtain ⟨axis, built, mode, same⟩ := alike {} .override (by rfl)
  have swept : ∀ axis ∈ samplerRequest.activeAxes,
      axis.hasField = true ∧ axis.contributed ({} : SweepOptions).catalog ≠ [] :=
    List.forall_mem_cons.2 ⟨⟨rfl, nofun⟩, List.forall_mem_singleton.2 ⟨rfl, nofun⟩⟩
  obtain ⟨report, run⟩ := SweepRequest.exists_generate_eq_ok swept ⟨0, 0⟩
  have loaded : samplerSession.loadConfig {} = .ok {} := rfl
  have asked : samplerFlags.request [] {} = .ok samplerRequest := rfl
  obtain ⟨plan, planned⟩ := GenerateFlags.exists_plan loaded (rfl : samplerSession.loadBase _ = .ok []) asked rfl run
  exact ⟨axis, plan, rfl, built, mode, same, same.trans ((Axis.resolve_eq rfl _).trans rfl), planned,
    shown samplerSession {} samplerFlags plan rfl planned⟩

end Command

end SettingsSweep

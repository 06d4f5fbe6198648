import SettingsSweep.Command.Sweep

/-!
A plan that is made tells every step that led to it: each of them succeeded. When they do, it is made. When one fails,
it is with a failure of its own, while it is still reading.
-/

set_option autoImplicit false

namespace SettingsSweep.Command

theorem exists_of_bind_eq_ok {ε α β : Type} {x : Except ε α} {f : α → Except ε β} {b : β}
    (h : x >>= f = .ok b) : ∃ a, x = .ok a ∧ f a = .ok b := by
  cases x with
  | error e => cases h
  | ok a => exact ⟨a, rfl, h⟩

theorem mapError_eq_ok {ε ε' α : Type} {x : Except ε α} {f : ε → ε'} {a : α}
    (h : x.mapError f = .ok a) : x = .ok a := by
  cases x with
  | error e => cases h
  | ok b => exact congrArg _ (Except.ok.inj h)

/-- What a plan is made from, and the files it comes to. -/
theorem GenerateFlags.plan_eq_ok {flags : GenerateFlags} {session : Session} {global : GlobalFlags}
    {plan : SweepPlan} (h : flags.plan session global = .ok plan) :
    ∃ config base request naming,
      session.loadConfig global = .ok config ∧ session.loadBase flags.base = .ok base ∧
      flags.request base config.fields = .ok request ∧
      flags.naming.over config.naming = .ok naming ∧
      request.generate ⟨config.fields, naming, config.generatedBy⟩ session.now = .ok plan.report ∧
      plan.out = flags.out.getD config.output.dir ∧
      plan.files = plan.report.artifacts.map
        (PlannedFile.ofArtifact plan.out (flags.groupByZ || config.output.groupByZ)) := by
  unfold GenerateFlags.plan at h
  obtain ⟨config, hc, h⟩ := exists_of_bind_eq_ok h
  obtain ⟨base, hb, h⟩ := exists_of_bind_eq_ok h
  obtain ⟨request, hr, h⟩ := exists_of_bind_eq_ok h
  obtain ⟨naming, hn, h⟩ := exists_of_bind_eq_ok h
  obtain ⟨report, hg, h⟩ := exists_of_bind_eq_ok h
  obtain rfl := Except.ok.inj h
  exact ⟨config, base, request, naming, hc, hb, hr, hn, mapError_eq_ok hg, rfl, rfl⟩

theorem GenerateFlags.plan_of_steps {flags : GenerateFlags} {session : Session} {global : GlobalFlags}
    {config : Configuration} {base : Document} {request : SweepRequest} {naming : NamingOptions} {report : SweepReport}
    (loaded : session.loadConfig global = .ok config) (based : session.loadBase flags.base = .ok base)
    (asked : flags.request base config.fields = .ok request) (named : flags.naming.over config.naming = .ok naming)
    (run : request.generate ⟨config.fields, naming, config.generatedBy⟩ session.now = .ok report) :
    flags.plan session global = .ok ⟨report, flags.out.getD config.output.dir, report.artifacts.map
      (PlannedFile.ofArtifact (flags.out.getD config.output.dir) (flags.groupByZ || config.output.groupByZ))⟩ := by
  unfold plan
  rw [loaded]
  change (session.loadBase flags.base >>= _) = _
  rw [based]
  change (flags.request base config.fields >>= _) = _
  rw [asked]
  change (flags.naming.over config.naming >>= _) = _
  rw [named]
  change ((request.generate _ _).mapError _ >>= _) = _
  rw [run]
  rfl

/-- What fails while it reads, if it fails. -/
def ReadsOnly {α : Type} (x : Except Failure α) : Prop :=
  ∀ failure, x = .error failure → failure.stage = .reading

namespace ReadsOnly

variable {α β : Type}

theorem ok (a : α) : ReadsOnly (.ok a) := fun _ h => nomatch h

theorem error {failure : Failure} (reading : failure.stage = .reading) :
    ReadsOnly (.error failure : Except Failure α) := by
  rintro _ ⟨⟩
  exact reading

theorem bind {x : Except Failure α} {f : α → Except Failure β} (first : ReadsOnly x)
    (next : ∀ a, ReadsOnly (f a)) : ReadsOnly (x >>= f) := by
  intro failure h
  cases x with
  | error cause =>
    cases (h : (Except.error cause : Except Failure β) = .error failure)
    exact first _ rfl
  | ok a => exact next a failure h

theorem map {x : Except Failure α} (first : ReadsOnly x) (f : α → β) : ReadsOnly (x.map f) := by
  intro failure h
  cases x with
  | error cause =>
    cases h
    exact first _ rfl
  | ok a => cases h

theorem mapError {ε : Type} {f : ε → Failure} (reading : ∀ e, (f e).stage = .reading)
    (x : Except ε α) : ReadsOnly (x.mapError f) := by
  cases x with
  | error e => exact error (reading e)
  | ok a => exact ok a

theorem mapM {f : α → Except Failure β} (each : ∀ a, ReadsOnly (f a)) (items : List α) :
    ReadsOnly (items.mapM f) := by
  induction items with
  | nil => exact ok []
  | cons item items ih =>
    rw [List.mapM_cons]
    exact (each item).bind fun b => ih.bind fun bs => ok (b :: bs)

end ReadsOnly

namespace GenerateFlags

end GenerateFlags

end SettingsSweep.Command

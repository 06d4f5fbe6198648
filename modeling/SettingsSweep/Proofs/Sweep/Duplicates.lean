import SettingsSweep.Proofs.Naming.Duplicates
import SettingsSweep.Proofs.Sweep.FileNames
import SettingsSweep.Proofs.Sweep.Warnings

/-!
What a run reports about its file names. The counts, the names given out, the list of duplicates and the
warnings are kept apart; one invariant of a run ties them together.
-/

set_option autoImplicit false

namespace SettingsSweep

theorem Warning.addNew_duplicateFilename (listed : List String) (name : String) :
    addNew (listed.map .duplicateFilename) [.duplicateFilename name] =
      (if name ∈ listed then listed else listed ++ [name]).map .duplicateFilename := by
  have told : Warning.duplicateFilename name ∈ listed.map .duplicateFilename ↔ name ∈ listed := by
    simp
  change (if _ ∈ _ then _ else _) = _
  by_cases known : name ∈ listed
  · rw [if_pos (told.2 known), if_pos known]
  · rw [if_neg fun h => known (told.1 h), if_neg known, List.map_append]
    rfl

namespace SweepState

variable {options : SweepOptions} {template : String} {state : SweepState} {v : Variant}
  {name : String} {names : List String}

theorem registry_add (asked : v.provenance.fileName template v.document options.naming = name) :
    (state.add options template v).registry = (state.registry.claim options.naming name).1 := by
  subst asked
  rfl

theorem reverse_duplicates_add
    (asked : v.provenance.fileName template v.document options.naming = name) :
    (state.add options template v).duplicates.reverse =
      if (state.registry.claim options.naming name).2.duplicate = true then
        if name ∈ state.duplicates.reverse then state.duplicates.reverse
        else state.duplicates.reverse ++ [name]
      else state.duplicates.reverse := by
  subst asked
  unfold add
  dsimp only
  split_ifs <;> simp_all

theorem filter_duplicates_add (plain : ∀ w ∈ v.warnings, w.quotesFilename = false)
    (asked : v.provenance.fileName template v.document options.naming = name) :
    (state.add options template v).warnings.filter (·.quotesFilename) =
      Warning.addNew (state.warnings.filter (·.quotesFilename))
        (if (state.registry.claim options.naming name).2.duplicate = true then
          [.duplicateFilename name] else []) := by
  subst asked
  have own : v.warnings.filter (·.quotesFilename) = [] :=
    List.filter_eq_nil_iff.2 fun w hw => by simp [plain w hw]
  unfold add
  simp only [Warning.filter_addNew, own]
  split <;> rfl

/-- The state of a run, told from the names that its documents asked for. -/
structure Reports (options : NamingOptions) (names : List String) (state : SweepState) : Prop where
  registry : state.registry = NameRegistry.after options {} names
  listed : Listed (NameRegistry.ClashesAt options names) state.duplicates.reverse
  warned : state.warnings.filter (·.quotesFilename) =
    state.duplicates.reverse.map .duplicateFilename

theorem reports_start (options : NamingOptions) {warnings : List Warning}
    (plain : ∀ w ∈ warnings, w.quotesFilename = false) :
    Reports options [] { warnings := warnings } where
  registry := rfl
  listed := Listed.empty fun _ _ h => absurd h.lt (Nat.not_lt_zero _)
  warned := List.filter_eq_nil_iff.2 fun w hw => by simp [plain w hw]

/-- A clash is listed and warned about, unless it was before; nothing else touches the reports. -/
theorem reports_add (h : Reports options.naming names state)
    (plain : ∀ w ∈ v.warnings, w.quotesFilename = false) :
    Reports options.naming (names ++ [v.stem options template ++ options.naming.extension])
      (state.add options template v) := by
  obtain ⟨registry, listed, warned⟩ := h
  have asked : v.provenance.fileName template v.document options.naming =
      v.stem options template ++ options.naming.extension := v.fileName_eq options template
  generalize v.stem options template ++ options.naming.extension = name at asked ⊢
  refine ⟨?_, ?_, ?_⟩
  · rw [registry_add asked, registry, NameRegistry.after_concat]
  · rw [reverse_duplicates_add asked]
    split
    · next clash =>
      refine (listed.concat (fun i name h => h.lt) name).congr fun i other => ?_
      rw [NameRegistry.clashesAt_concat, ← registry, clash]
      simp
    · next clash =>
      refine listed.congr fun i other => ?_
      rw [NameRegistry.clashesAt_concat, ← registry]
      simp [clash]
  · rw [filter_duplicates_add plain asked, warned, reverse_duplicates_add asked]
    split
    · exact Warning.addNew_duplicateFilename _ _
    · rfl

theorem reports_foldl {vs : List Variant} {warnings : List Warning}
    (start : ∀ w ∈ warnings, w.quotesFilename = false)
    (plain : ∀ v ∈ vs, ∀ w ∈ v.warnings, w.quotesFilename = false) :
    Reports options.naming (vs.map fun v => v.stem options template ++ options.naming.extension)
      (vs.foldl (fun s v => s.add options template v) { warnings := warnings }) := by
  induction vs using List.reverseRecOn with
  | nil => exact reports_start options.naming start
  | append_singleton vs v ih =>
    rw [List.map_append, List.foldl_append]
    apply reports_add
    · exact ih fun u hu => plain u (List.mem_append_left _ hu)
    · exact plain v (List.mem_append_right _ (List.mem_singleton.2 rfl))

end SweepState

namespace SweepRequest

variable {request : SweepRequest} {options : SweepOptions} {now : Instant} {report : SweepReport}

theorem reports_finalState (run : request.generate options now = .ok report) :
    SweepState.Reports options.naming (request.renderedNames options now report.axes)
      (request.finalState options now report.axes) := by
  rw [axes_eq run, renderedNames, stems, List.map_map]
  apply SweepState.reports_foldl
  · intro w hw
    exact not_quotesFilename_of_mem_firstWarnings hw
  · intro v hv w hw
    obtain ⟨c, -, rfl⟩ := List.mem_map.1 hv
    exact not_quotesFilename_of_mem_variant hw

theorem duplicates_eq (run : request.generate options now = .ok report) :
    report.duplicates = (request.finalState options now report.axes).duplicates.reverse := by
  rw [generate_of_axes (generate_eq_ok run).1] at run
  exact congrArg SweepReport.duplicates (Except.ok.inj run).symm

/-- The duplicates of a report under either policy, and the warnings about them. -/
theorem duplicates_exact (run : request.generate options now = .ok report) :
    let names := request.renderedNames options now report.axes
    let files := report.artifacts.map (·.filename)
    (options.naming.onDuplicate = .warn →
      files = names ∧
      (∀ name, name ∈ report.duplicates ↔ 2 ≤ names.count name) ∧
      Listed (fun i name => names[i]? = some name ∧ (names.take i).count name = 1)
        report.duplicates) ∧
    (options.naming.onDuplicate = .suffix →
      files.length = names.length ∧
      Listed (fun i name => names[i]? = some name ∧ files[i]? ≠ some name) report.duplicates ∧
      ∀ name, 2 ≤ names.count name → name ∈ report.duplicates) ∧
    report.warnings.filter (·.quotesFilename) = report.duplicates.map .duplicateFilename := by
  intro names files
  obtain ⟨-, listed, warned⟩ := reports_finalState run
  rw [← duplicates_eq run] at listed warned
  have filed : files = (NameRegistry.claims options.naming {} names).map (·.name) :=
    filenames_eq run
  refine ⟨fun policy => ?_, fun policy => ?_, ?_⟩
  · have seconds := NameRegistry.listed_warn policy listed
    refine ⟨by rw [filed, NameRegistry.claims_warn policy], fun name => ?_, seconds⟩
    constructor
    · intro h
      obtain ⟨i, hi, count⟩ := (seconds.mem_iff name).1 h
      have upTo : (names.take (i + 1)).count name = 2 := by
        rw [List.take_add_one, hi, List.count_append, count]
        simp
      rw [← upTo]
      exact (List.take_sublist _ _).count_le _
    · intro h
      exact (listed.mem_iff name).2 (NameRegistry.exists_clashesAt h)
  · refine ⟨by rw [filed]; simp, ?_, fun name h => ?_⟩
    · refine listed.congr fun i name => ?_
      rw [NameRegistry.clashesAt_suffix policy, filed, List.getElem?_map]
    · exact (listed.mem_iff name).2 (NameRegistry.exists_clashesAt h)
  · rw [warnings_eq run]
    exact warned

/-- The third name is rendered once, and still it clashes with a name that was made up before. -/
theorem duplicates_exact_clashing :
    ∃ report, clashingRequest.generate clashingOptions ⟨0, 0⟩ = .ok report ∧
      clashingOptions.naming.onDuplicate = .suffix ∧
      (∀ (i : Nat) name, ["a_b.txt", "a_b.txt", "a_b_2.txt"][i]? = some name →
        (report.artifacts.map (·.filename))[i]? ≠ some name → name ∈ report.duplicates) ∧
      "a_b.txt" ∈ report.duplicates := by
  have axes : ∀ axis ∈ clashingRequest.activeAxes,
      axis.hasField = true ∧ axis.contributed clashingOptions.catalog ≠ [] := by
    decide +kernel
  obtain ⟨report, run⟩ := exists_generate_eq_ok axes ⟨0, 0⟩
  have names : clashingRequest.renderedNames clashingOptions ⟨0, 0⟩ report.axes =
      ["a_b.txt", "a_b.txt", "a_b_2.txt"] := by
    rw [axes_eq run, renderedNames, clashing_stems]
    decide
  obtain ⟨-, suffixed, -⟩ := duplicates_exact run
  obtain ⟨-, listed, twice⟩ := suffixed rfl
  rw [names] at listed twice
  exact ⟨report, run, rfl, fun i name h ne => (listed.mem_iff name).2 ⟨i, h, ne⟩,
    twice "a_b.txt" (by decide)⟩

end SweepRequest

end SettingsSweep

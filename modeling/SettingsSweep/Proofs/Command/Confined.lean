import SettingsSweep.Proofs.Naming.Separators
import SettingsSweep.Proofs.Sweep.FileNames
import SettingsSweep.Proofs.Sweep.Preview

/-!
Where the files of a sweep can go. A template with a path separator is refused wherever it comes from, and no
value brings one into a name; the extension is not looked at, so it decides.
-/

set_option autoImplicit false

namespace SettingsSweep

namespace SweepRequest

variable {request : SweepRequest} {options : SweepOptions} {now : Instant} {report : SweepReport}

/-- Under both policies a file has the name that its document asks for, or that name with a number. -/
theorem filename_form (run : request.generate options now = .ok report) {artifact : Artifact}
    (h : artifact ∈ report.artifacts) :
    ∃ stem ∈ request.stems options now report.axes,
      artifact.filename = stem ++ options.naming.extension ∨
        ∃ n : Nat, artifact.filename = stem ++ "_" ++ toString n ++ options.naming.extension := by
  have mem : artifact.filename ∈ report.artifacts.map (·.filename) := List.mem_map_of_mem h
  rw [filenames_eq run, nameClaims, renderedNames] at mem
  cases policy : options.naming.onDuplicate with
  | warn =>
    rw [NameRegistry.claims_warn policy] at mem
    obtain ⟨stem, hs, name⟩ := List.mem_map.1 mem
    exact ⟨stem, hs, .inl name.symm⟩
  | suffix =>
    have apart := NameRegistry.claims_namedApart policy (request.stems options now report.axes)
    obtain ⟨i, hi⟩ := List.mem_iff_getElem?.1 mem
    obtain ⟨inFiles, -⟩ := List.getElem?_eq_some_iff.1 hi
    rw [apart.length_eq] at inFiles
    have hs := List.getElem?_eq_getElem inFiles
    refine ⟨_, List.getElem_mem inFiles, ?_⟩
    rcases apart.form i _ _ hs hi with name | ⟨n, -, -, name⟩
    · exact .inl name
    · exact .inr ⟨n, name⟩

theorem hasSeparator_stem {axes : SweepAxes}
    (clean : hasSeparator (template options axes) = false) :
    ∀ stem ∈ request.stems options now axes, hasSeparator stem = false := by
  intro stem h
  obtain ⟨v, -, rfl⟩ := List.mem_map.1 h
  exact Template.hasSeparator_fill clean (FileName.hasSeparator_variableText _ _ _ _)

theorem exists_stem (run : request.generate options now = .ok report)
    (clean : hasSeparator (template options report.axes) = false) {artifact : Artifact}
    (h : artifact ∈ report.artifacts) :
    ∃ stem, hasSeparator stem = false ∧
      artifact.filename = stem ++ options.naming.extension := by
  obtain ⟨stem, hs, name⟩ := filename_form run h
  have plain := hasSeparator_stem clean stem hs
  rcases name with name | ⟨n, name⟩
  · exact ⟨stem, plain, name⟩
  · refine ⟨stem ++ "_" ++ toString n, ?_, name⟩
    rw [hasSeparator_append, hasSeparator_append, plain, hasSeparator_toString]
    decide

end SweepRequest

namespace Command

theorem PlannedFile.hasSeparator_groupName (z : AxisValue) :
    hasSeparator (groupName z) = false := by
  rw [groupName, hasSeparator_append, hasSeparator_append, hasSeparator_append,
    FileName.hasSeparator_sanitize, FileName.hasSeparator_sanitize]
  decide

theorem template_of_badValue?_eq_none {config : Configuration} (h : config.badValue? = none) :
    config.naming.template.any hasSeparator = false := by
  unfold Configuration.badValue? at h
  dsimp only at h
  split at h
  · cases h
  · split at h
    · cases h
    · next clean => exact Bool.eq_false_iff.2 clean

/-- The template in force comes from the flags or from the configuration, and both are looked at. -/
theorem NamingFlags.template_of_over {flags : NamingFlags} {options naming : NamingOptions}
    (h : flags.over options = .ok naming) (clean : options.template.any hasSeparator = false) :
    naming.template.any hasSeparator = false := by
  unfold NamingFlags.over at h
  split at h
  · cases h
  · next flag =>
    have layered : naming.template = flags.template.or options.template := by
      dsimp only at h
      split at h <;>
      · obtain ⟨policy, -, h⟩ := exists_of_bind_eq_ok h
        exact (congrArg NamingOptions.template (Except.ok.inj h)).symm
    rw [layered]
    cases given : flags.template with
    | none => exact clean
    | some template => simpa [given] using flag

/-- The extension ends every file name as it is given, and no other part of a name has a separator: a file
    has a single name if and only if the extension does, and the directory of a Z value always has one. -/
theorem generated_names_confined {config : Configuration} {flags : NamingFlags}
    {naming : NamingOptions} {request : SweepRequest} {now : Instant} {report : SweepReport}
    (valid : config.badValue? = none) (flagged : flags.over config.naming = .ok naming)
    (run : request.generate ⟨config.fields, naming, config.generatedBy⟩ now = .ok report) :
    (∀ artifact ∈ report.artifacts, ∃ stem, hasSeparator stem = false ∧
      artifact.filename = stem ++ naming.extension) ∧
    (∀ artifact ∈ report.artifacts,
      hasSeparator artifact.filename = hasSeparator naming.extension) ∧
    ∀ z, hasSeparator (PlannedFile.groupName z) = false := by
  have clean := NamingFlags.template_of_over flagged (template_of_badValue?_eq_none valid)
  have template : hasSeparator
      (SweepRequest.template ⟨config.fields, naming, config.generatedBy⟩ report.axes) = false := by
    cases given : naming.template with
    | none => simpa [SweepRequest.template, given] using Template.hasSeparator_suggest _ _ _
    | some template => simpa [SweepRequest.template, given] using clean
  have named : ∀ artifact ∈ report.artifacts, ∃ stem, hasSeparator stem = false ∧
      artifact.filename = stem ++ naming.extension :=
    fun artifact h => SweepRequest.exists_stem run template h
  refine ⟨named, fun artifact h => ?_, PlannedFile.hasSeparator_groupName⟩
  obtain ⟨stem, plain, name⟩ := named artifact h
  rw [name, hasSeparator_append, plain, Bool.false_or]

def slashedRequest : SweepRequest where
  base := [("seed", .str "../7")]
  x := { name := .x, field := "sampler", choices := ["../euler", "a\\b"] }
  y := { name := .y, field := "steps", expressions := ["20"] }

theorem exists_generate_slashed (naming : NamingOptions) :
    ∃ report, slashedRequest.generate ⟨{}, naming, "xyzplot"⟩ ⟨0, 0⟩ = .ok report := by
  have axes : ∀ axis ∈ slashedRequest.activeAxes,
      axis.hasField = true ∧ axis.contributed ({} : Catalog) ≠ [] := by
    decide +kernel
  obtain ⟨options, catalog, eq⟩ : ∃ options : SweepOptions, options.catalog = {} ∧
      options = ⟨{}, naming, "xyzplot"⟩ := ⟨_, rfl, rfl⟩
  rw [← catalog] at axes
  rw [← eq]
  exact SweepRequest.exists_generate_eq_ok axes ⟨0, 0⟩

theorem generated_names_confined_slashed : ∃ naming report,
    ({} : Configuration).badValue? = none ∧
      NamingFlags.over { extension := some "json" } ({} : Configuration).naming = .ok naming ∧
      slashedRequest.generate ⟨{}, naming, "xyzplot"⟩ ⟨0, 0⟩ = .ok report ∧
      ∀ artifact ∈ report.artifacts, hasSeparator artifact.filename = false := by
  have valid : ({} : Configuration).badValue? = none := by decide +kernel
  obtain ⟨report, run⟩ := exists_generate_slashed { extension := ".json" }
  have flagged : NamingFlags.over { extension := some "json" } ({} : Configuration).naming =
      .ok { extension := ".json" } := rfl
  have plain : hasSeparator ".json" = false := by decide
  exact ⟨_, report, valid, flagged, run, fun artifact h =>
    ((generated_names_confined valid flagged run).2.1 artifact h).trans plain⟩

/-- The flag for the extension is not refused, and the file goes to another directory. -/
theorem extension_leaves_directory : ∃ naming report first rest,
    ({} : Configuration).badValue? = none ∧
      NamingFlags.over { template := some "p", extension := some "./../../outside" }
        ({} : Configuration).naming = .ok naming ∧
      slashedRequest.generate ⟨{}, naming, "xyzplot"⟩ ⟨0, 0⟩ = .ok report ∧
      report.artifacts = first :: rest ∧ first.filename = "p./../../outside" := by
  have valid : ({} : Configuration).badValue? = none := by decide +kernel
  obtain ⟨report, run⟩ :=
    exists_generate_slashed { template := some "p", extension := "./../../outside" }
  obtain ⟨first, rest, h⟩ := SweepRequest.exists_first run
  refine ⟨_, report, first, rest, valid, rfl, run, h, ?_⟩
  have fixed (values : Variable → String) : Template.fill "p" values = "p" := rfl
  rw [SweepRequest.first_filename run h]
  change Template.fill "p" _ ++ "./../../outside" = _
  rw [fixed]
  decide

end Command

end SettingsSweep

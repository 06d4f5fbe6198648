import SettingsSweep.Proofs.Command.Confined
import SettingsSweep.Proofs.Files.Path

/-!
The directories of the Z values. All files of one value go to one directory. Two values have directories of their own
only if sanitizing tells their texts apart, as nothing else of a value is in the name of its directory.
-/

set_option autoImplicit false

namespace SettingsSweep

theorem Combination.field_of_axisValue? {c : Combination} {axes : SweepAxes} {name : AxisName}
    {v : AxisValue} (h : c.axisValue? axes name = some v) :
    (axes.toList.find? fun axis => axis.name = name).map (·.field) = some v.field := by
  have first : (c.entries axes).map Prod.fst <+: axes.toList := by
    rw [entries, SweepAxes.toList]
    cases axes.z with
    | none => exact List.prefix_rfl
    | some axis =>
      cases c.z with
      | none => exact List.prefix_append [axes.x, axes.y] [axis]
      | some value => exact List.prefix_rfl
  obtain ⟨entry, found, rfl⟩ := Option.map_eq_some_iff.1 h
  have mapped : ((c.entries axes).map Prod.fst).find? (fun axis => axis.name = name) =
      some entry.1 := by
    rw [List.find?_map]
    exact congrArg (Option.map Prod.fst) found
  rw [first.find?_eq_some mapped]
  rfl

namespace SweepRequest

variable {request : SweepRequest} {options : SweepOptions} {now : Instant} {report : SweepReport}

theorem z_field_eq (run : request.generate options now = .ok report) {a b : Artifact}
    (ha : a ∈ report.artifacts) (hb : b ∈ report.artifacts) {v w : AxisValue}
    (hv : a.provenance.params.z = some v) (hw : b.provenance.params.z = some w) :
    v.field = w.field := by
  have field {artifact : Artifact} (h : artifact ∈ report.artifacts) {u : AxisValue}
      (hu : artifact.provenance.params.z = some u) :
      (report.axes.toList.find? fun axis => axis.name = .z).map (·.field) = some u.field := by
    obtain ⟨i, hi⟩ := List.mem_iff_getElem?.1 h
    obtain ⟨c, name, -, rfl⟩ := artifact_getElem? run hi
    exact Combination.field_of_axisValue? hu
  exact Option.some.inj ((field ha hv).symm.trans (field hb hw))

section

variable (slots : request.InSlots) {z : Axis} (active : request.activeZ = some z)

include slots active

theorem exists_z_of_mem (run : request.generate options now = .ok report) {artifact : Artifact}
    (h : artifact ∈ report.artifacts) :
    ∃ v ∈ (z.resolve options.catalog).values,
      artifact.provenance.params.z = some ⟨z.path, v⟩ := by
  obtain ⟨i, hi⟩ := List.mem_iff_getElem?.1 h
  obtain ⟨c, hc, params, -⟩ := artifact_records slots run hi
  obtain ⟨-, -, -, place⟩ := places_of_getElem? run hc
  obtain ⟨v, hv, at_place⟩ := place z active
  refine ⟨v, List.mem_of_getElem? at_place, ?_⟩
  rw [params]
  simp [recorded, active, hv]

theorem exists_artifact_of_z (run : request.generate options now = .ok report) {v : Scalar}
    (h : v ∈ (z.resolve options.catalog).values) :
    ∃ artifact ∈ report.artifacts, artifact.provenance.params.z = some ⟨z.path, v⟩ := by
  obtain ⟨c, hc, found⟩ := exists_combination slots run (by simp [activeAxes, active]) h
  obtain ⟨i, hi⟩ := List.mem_iff_getElem?.1 hc
  obtain ⟨artifact, ha, params⟩ := exists_artifact slots run hi
  rw [slots.z z active] at found
  exact ⟨artifact, List.mem_of_getElem? ha, params ▸ found⟩

end

end SweepRequest

namespace Command

-- Names of directories are compared as texts; unification must not start to sanitize them.
attribute [local irreducible] FileName.sanitize

namespace PlannedFile

theorem isLastName_groupName (z : AxisValue) : Path.IsLastName (groupName z) where
  nonempty := by simp [groupName, ← String.toList_inj]
  plain h := by
    have safe := hasSeparator_eq_false_iff.1 (hasSeparator_groupName z) _ h
    cases safe
  noNul := by
    simp [groupName, FileName.nul_notMem_sanitize]
  solid := by simp [groupName, ← String.toList_inj]

theorem groupName_eq_iff {v w : AxisValue} (field : v.field = w.field) :
    groupName v = groupName w ↔
      FileName.sanitize v.value.display = FileName.sanitize w.value.display := by
  rw [groupName, groupName, field, String.append_right_inj]

theorem directory_of_z {params : PlotParams} {v : AxisValue} (h : params.z = some v) (out : String) :
    directory out true params = Path.join out (groupName v) := by
  unfold directory
  rw [h]

theorem parent?_of_z {artifact : Artifact} {v : AxisValue}
    (h : artifact.provenance.params.z = some v) (name : Path.IsLastName artifact.filename)
    (out : String) : Path.parent? (ofArtifact out true artifact).path =
      some (directory out true artifact.provenance.params) := by
  rw [ofArtifact, directory_of_z h]
  exact Path.parent?_join (isLastName_groupName v) name out

/-- Files go to one directory exactly if they have the same Z value. -/
def ApartByZ (artifacts : List Artifact) (out : String) : Prop :=
  ∀ a ∈ artifacts, ∀ b ∈ artifacts,
    directory out true a.provenance.params = directory out true b.provenance.params ↔
      a.provenance.params.z = b.provenance.params.z

end PlannedFile

open PlannedFile

variable {request : SweepRequest} {options : SweepOptions} {now : Instant} {report : SweepReport}

theorem directory_eq_iff (run : request.generate options now = .ok report) {a b : Artifact}
    (ha : a ∈ report.artifacts) (hb : b ∈ report.artifacts) {v w : AxisValue}
    (hv : a.provenance.params.z = some v) (hw : b.provenance.params.z = some w) (out : String) :
    directory out true a.provenance.params = directory out true b.provenance.params ↔
      FileName.sanitize v.value.display = FileName.sanitize w.value.display := by
  rw [directory_of_z hv, directory_of_z hw,
    Path.join_right_inj (isLastName_groupName v).toIsName (isLastName_groupName w).toIsName,
    groupName_eq_iff (SweepRequest.z_field_eq run ha hb hv hw)]

/-- A file whose name can end a path goes to the directory of its Z value. Two values have the same directory exactly if
    their texts are the same once sanitized, so all values have their own exactly if no sanitized text comes twice. -/
theorem z_directories (run : request.generate options now = .ok report) (out : String) :
    (∀ artifact ∈ report.artifacts, ∀ v, artifact.provenance.params.z = some v →
      Path.IsLastName artifact.filename →
        Path.parent? (PlannedFile.ofArtifact out true artifact).path =
          some (directory out true artifact.provenance.params)) ∧
    (∀ a ∈ report.artifacts, ∀ b ∈ report.artifacts, ∀ v w,
      a.provenance.params.z = some v → b.provenance.params.z = some w →
        (directory out true a.provenance.params = directory out true b.provenance.params ↔
          FileName.sanitize v.value.display = FileName.sanitize w.value.display)) ∧
    (request.InSlots → ∀ z, request.activeZ = some z →
      (ApartByZ report.artifacts out ↔
        ((z.resolve options.catalog).values.map fun v => FileName.sanitize v.display).Nodup)) := by
  refine ⟨fun artifact _ v hv name => parent?_of_z hv name out,
    fun a ha b hb v w hv hw => directory_eq_iff run ha hb hv hw out, ?_⟩
  intro slots z active
  constructor
  · intro apart
    have once : (z.resolve options.catalog).values.Nodup :=
      (z.nodup_keys_resolve options.catalog).of_map _
    refine once.map_on ?_
    intro v hv w hw same
    obtain ⟨a, ha, za⟩ := SweepRequest.exists_artifact_of_z slots active run hv
    obtain ⟨b, hb, zb⟩ := SweepRequest.exists_artifact_of_z slots active run hw
    have together := (apart a ha b hb).1 ((directory_eq_iff run ha hb za zb out).2 same)
    rw [za, zb] at together
    exact congrArg AxisValue.value (Option.some.inj together)
  · intro once a ha b hb
    obtain ⟨v, hv, za⟩ := SweepRequest.exists_z_of_mem slots active run ha
    obtain ⟨w, hw, zb⟩ := SweepRequest.exists_z_of_mem slots active run hb
    rw [directory_eq_iff run ha hb za zb, za, zb, Option.some.injEq, AxisValue.mk.injEq]
    exact ⟨fun same => ⟨rfl, List.inj_on_of_nodup_map once hv hw same⟩,
      fun same => congrArg (FileName.sanitize ·.display) same.2⟩

def pOptions : SweepOptions := { naming := { template := some "p" } }

def notedRequest : SweepRequest where
  base := []
  x := { name := .x, field := "seed", expressions := ["1"] }
  y := { name := .y, field := "steps", expressions := ["2"] }
  z := some { name := .z, field := "render.note", expressions := ["low res, high"] }

theorem z_directories_noted :
    ∃ report first rest, notedRequest.generate pOptions ⟨0, 0⟩ = .ok report ∧
      report.artifacts = first :: rest ∧ ApartByZ report.artifacts "plots/" ∧
      Path.parent? (PlannedFile.ofArtifact "plots/" true first).path =
        some "plots/z_note_low_res" := by
  have axes : ∀ axis ∈ notedRequest.activeAxes,
      axis.hasField = true ∧ axis.contributed pOptions.catalog ≠ [] := by
    decide +kernel
  have slots : notedRequest.InSlots := ⟨rfl, rfl, by rintro z ⟨⟩; rfl⟩
  obtain ⟨z, active⟩ : ∃ z, notedRequest.activeZ = some z := ⟨_, rfl⟩
  have values : (z.resolve pOptions.catalog).values = [.text "low res", .text "high"] := by
    cases active
    rw [Axis.resolve_values (by decide)]
    decide +kernel
  have path : z.path = "render.note" := by
    cases active
    decide +kernel
  obtain ⟨report, run⟩ := SweepRequest.exists_generate_eq_ok axes ⟨0, 0⟩
  obtain ⟨first, rest, h⟩ := SweepRequest.exists_first run
  obtain ⟨c, hc, params, -⟩ := SweepRequest.artifact_records slots run (i := 0) (by rw [h]; rfl)
  obtain ⟨-, -, head⟩ := SweepRequest.first_values run hc
  obtain ⟨v, hv, first_value⟩ := head z active
  rw [values] at first_value
  obtain rfl := Option.some.inj first_value
  have recorded : first.provenance.params.z = some ⟨"render.note", .text "low res"⟩ := by
    rw [params]
    simp [SweepRequest.recorded, active, hv, path]
  have name : first.filename = "p.txt" := by
    rw [SweepRequest.first_filename run h]
    exact congrArg (· ++ ".txt") (rfl : Template.fill "p" _ = "p")
  have last : Path.IsLastName first.filename := by
    rw [name]
    exact ⟨⟨by decide, by decide, by decide⟩, by decide⟩
  obtain ⟨parent, -, apart⟩ := z_directories run "plots/"
  refine ⟨report, first, rest, run, h, (apart slots z active).2 ?_, ?_⟩
  · rw [values]
    decide +kernel
  · rw [parent first (h ▸ List.mem_cons_self) _ recorded last, directory_of_z recorded]
    decide +kernel

/-- Two notes that differ in blanks only. -/
def blankNotedRequest : SweepRequest where
  base := []
  x := { name := .x, field := "seed", expressions := ["1"] }
  y := { name := .y, field := "steps", expressions := ["2"] }
  z := some { name := .z, field := "note", expressions := ["low res, low_res"] }

/-- The directory of a value is that of the value with underscores for its blanks. -/
theorem blank_values_share_directory :
    ∃ report a b, blankNotedRequest.generate pOptions ⟨0, 0⟩ = .ok report ∧
      a ∈ report.artifacts ∧ b ∈ report.artifacts ∧
      a.provenance.params.z = some ⟨"note", .text "low res"⟩ ∧
      b.provenance.params.z = some ⟨"note", .text "low_res"⟩ ∧
      directory "plots" true a.provenance.params = "plots/z_note_low_res" ∧
      directory "plots" true b.provenance.params = "plots/z_note_low_res" := by
  have axes : ∀ axis ∈ blankNotedRequest.activeAxes,
      axis.hasField = true ∧ axis.contributed pOptions.catalog ≠ [] := by
    decide +kernel
  have slots : blankNotedRequest.InSlots := ⟨rfl, rfl, by rintro z ⟨⟩; rfl⟩
  obtain ⟨z, active⟩ : ∃ z, blankNotedRequest.activeZ = some z := ⟨_, rfl⟩
  have values : (z.resolve pOptions.catalog).values = [.text "low res", .text "low_res"] := by
    cases active
    rw [Axis.resolve_values (by decide)]
    decide +kernel
  have path : z.path = "note" := by
    cases active
    decide +kernel
  obtain ⟨report, run⟩ := SweepRequest.exists_generate_eq_ok axes ⟨0, 0⟩
  have file {v : Scalar} (hv : v ∈ (z.resolve pOptions.catalog).values) :
      ∃ artifact ∈ report.artifacts, artifact.provenance.params.z = some ⟨"note", v⟩ := by
    rw [← path]
    exact SweepRequest.exists_artifact_of_z slots active run hv
  obtain ⟨a, ha, za⟩ := file (v := .text "low res") (by rw [values]; decide)
  obtain ⟨b, hb, zb⟩ := file (v := .text "low_res") (by rw [values]; decide)
  refine ⟨report, a, b, run, ha, hb, za, zb, ?_, ?_⟩
  · rw [directory_of_z za]
    decide +kernel
  · rw [directory_of_z zb]
    decide +kernel

end Command

end SettingsSweep

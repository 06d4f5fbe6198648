import SettingsSweep.Proofs.Axis.FiniteValues
import SettingsSweep.Proofs.Document.Finite
import SettingsSweep.Proofs.Sweep.Document
import SettingsSweep.Sweep.Files

/-!
When a sweep fails, and with which error: fields are looked at before values, and each in the order of the slots. Nothing
else can fail, since everything that is serialized is a JSON value, and a Z axis that is switched off is as good as none.
-/

set_option autoImplicit false

namespace SettingsSweep

namespace SweepRequest

variable {request : SweepRequest} {catalog : Catalog} {options : SweepOptions} {now : Instant} {error : SweepError}

def slots (request : SweepRequest) : List (AxisName × Axis) :=
  (.x, request.x) :: (.y, request.y) :: (request.activeZ.map fun z => (.z, z)).toList

/-- The error of a request: the first slot without a field, and only where all have one the first without values. -/
inductive Refuses (request : SweepRequest) (catalog : Catalog) : SweepError → Prop
  | missingField {before after : List (AxisName × Axis)} {name : AxisName} {axis : Axis}
      (order : request.slots = before ++ (name, axis) :: after) (blank : Text.isBlankText axis.field = true)
      (fields : ∀ slot ∈ before, Text.isBlankText slot.2.field = false) :
      Refuses request catalog (.missingField name)
  | emptyAxis {before after : List (AxisName × Axis)} {name : AxisName} {axis : Axis}
      (fields : ∀ slot ∈ request.slots, Text.isBlankText slot.2.field = false)
      (order : request.slots = before ++ (name, axis) :: after) (empty : (axis.resolve catalog).values = [])
      (values : ∀ slot ∈ before, (slot.2.resolve catalog).values ≠ []) :
      Refuses request catalog (.emptyAxis name (Text.trim axis.field))

def blankSlot? (request : SweepRequest) : Option (AxisName × Axis) :=
  request.slots.find? fun slot => Text.isBlankText slot.2.field

def emptySlot? (request : SweepRequest) (catalog : Catalog) : Option (AxisName × Axis) :=
  request.slots.find? fun slot => (slot.2.resolve catalog).values.isEmpty

theorem blankSlot?_eq_none_iff :
    request.blankSlot? = none ↔ ∀ slot ∈ request.slots, Text.isBlankText slot.2.field = false := by
  simp [blankSlot?]

theorem emptySlot?_eq_none_iff :
    request.emptySlot? catalog = none ↔ ∀ slot ∈ request.slots, (slot.2.resolve catalog).values ≠ [] := by
  simp [emptySlot?]

theorem refuses_iff : request.Refuses catalog error ↔
    (∃ slot, request.blankSlot? = some slot ∧ error = .missingField slot.1) ∨
      request.blankSlot? = none ∧ ∃ slot, request.emptySlot? catalog = some slot ∧
        error = .emptyAxis slot.1 (Text.trim slot.2.field) := by
  constructor
  · intro refused
    cases refused with
    | @missingField before after name axis order blank fields =>
      refine .inl ⟨(name, axis), List.find?_eq_some_iff_append.2 ⟨blank, before, after, order, ?_⟩, rfl⟩
      simpa using fields
    | @emptyAxis before after name axis fields order empty values =>
      refine .inr ⟨blankSlot?_eq_none_iff.2 fields, (name, axis),
        List.find?_eq_some_iff_append.2 ⟨List.isEmpty_iff.2 empty, before, after, order, ?_⟩, rfl⟩
      simpa using values
  · rintro (⟨slot, found, rfl⟩ | ⟨none, slot, found, rfl⟩)
    · obtain ⟨blank, before, after, order, fields⟩ := List.find?_eq_some_iff_append.1 found
      exact .missingField order blank (by simpa using fields)
    · obtain ⟨empty, before, after, order, values⟩ := List.find?_eq_some_iff_append.1 found
      exact .emptyAxis (blankSlot?_eq_none_iff.1 none) order (List.isEmpty_iff.1 empty) (by simpa using values)

/-- Some error arises just if some axis in use cannot be swept. -/
theorem exists_refuses_iff : (∃ error, request.Refuses catalog error) ↔
    ∃ slot ∈ request.slots, Text.isBlankText slot.2.field = true ∨ (slot.2.resolve catalog).values = [] := by
  constructor
  · rintro ⟨error, refused⟩
    rcases refuses_iff.1 refused with ⟨slot, found, -⟩ | ⟨-, slot, found, -⟩
    · exact ⟨slot, List.mem_of_find?_eq_some found, .inl (List.find?_eq_some_iff_append.1 found).1⟩
    · exact ⟨slot, List.mem_of_find?_eq_some found,
        .inr (List.isEmpty_iff.1 (List.find?_eq_some_iff_append.1 found).1)⟩
  · rintro ⟨slot, member, bad⟩
    cases blank : request.blankSlot? with
    | some first => exact ⟨_, refuses_iff.2 (.inl ⟨first, blank, rfl⟩)⟩
    | none =>
      have field := blankSlot?_eq_none_iff.1 blank slot member
      have empty := bad.resolve_left (by simp [field])
      cases found : request.emptySlot? catalog with
      | some first => exact ⟨_, refuses_iff.2 (.inr ⟨blank, first, found, rfl⟩)⟩
      | none => exact absurd empty (emptySlot?_eq_none_iff.1 found slot member)

theorem activeAxes_eq (request : SweepRequest) : request.activeAxes = request.slots.map Prod.snd := by
  cases hz : request.activeZ <;> simp [activeAxes, slots, hz]

theorem name_of_mem_slots (inSlots : request.InSlots) {slot : AxisName × Axis} (h : slot ∈ request.slots) :
    slot.2.name = slot.1 := by
  simp only [slots, List.mem_cons, Option.mem_toList, Option.map_eq_some_iff] at h
  rcases h with rfl | rfl | ⟨z, hz, rfl⟩
  · exact inSlots.x
  · exact inSlots.y
  · exact inSlots.z z hz

theorem missingField?_eq (inSlots : request.InSlots) :
    request.missingField? = request.blankSlot?.map fun slot => .missingField slot.1 := by
  have blank : (fun axis => !axis.hasField) ∘ Prod.snd = fun slot : AxisName × Axis => Text.isBlankText slot.2.field := by
    funext slot
    simp [Axis.hasField]
  rw [missingField?, activeAxes_eq, List.find?_map, Option.map_map, blank]
  refine Option.map_congr fun slot found => ?_
  rw [Function.comp_apply, name_of_mem_slots inSlots (List.mem_of_find?_eq_some found)]

theorem emptyAxis?_eq (inSlots : request.InSlots) (catalog : Catalog) : emptyAxis? (request.sweepAxes catalog) =
    (request.emptySlot? catalog).map fun slot => .emptyAxis slot.1 (Text.trim slot.2.field) := by
  rw [emptyAxis?, toList_sweepAxes, activeAxes_eq, List.map_map, List.find?_map, Option.map_map]
  refine Option.map_congr fun slot found => ?_
  simp only [Function.comp_apply, Axis.resolve_name, Axis.resolve_field, Axis.path,
    name_of_mem_slots inSlots (List.mem_of_find?_eq_some found)]

theorem generate_eq_error_iff (inSlots : request.InSlots) :
    request.generate options now = .error error ↔ request.Refuses options.catalog error := by
  have fields := missingField?_eq inSlots
  have values := emptyAxis?_eq inSlots options.catalog
  rw [refuses_iff, generate, resolveAxes, fields]
  cases blank : request.blankSlot? with
  | some slot => simp [eq_comm]
  | none =>
    rw [sweepAxes] at values
    simp only [Option.map_none, values]
    cases empty : request.emptySlot? options.catalog with
    | some slot => simp [eq_comm]
    | none => simp

/-- A run sees of the Z axis what takes part, and nothing else. -/
theorem generate_congr_z {z other : Option Axis} (same : z.filter (·.enabled) = other.filter (·.enabled)) :
    ({ request with z := z }).generate options now = ({ request with z := other }).generate options now := by
  have active : ({ request with z := z }).activeZ = ({ request with z := other }).activeZ := same
  have mode : ({ request with z := z }).promptMode = ({ request with z := other }).promptMode := by
    funext name
    rw [promptMode, promptMode, activeAxes, activeAxes, active]
  have axes : ({ request with z := z }).resolveAxes options.catalog =
      ({ request with z := other }).resolveAxes options.catalog := by
    rw [resolveAxes, resolveAxes, missingField?, missingField?, activeAxes, activeAxes, active]
  have variants : ({ request with z := z }).variant options now = ({ request with z := other }).variant options now := by
    funext axes base prompts c
    rw [variant, variant, Combination.assignments, Combination.assignments, mode]
  unfold generate
  rw [axes, variants]
  rfl

theorem generate_of_disabled {z : Axis} (off : z.enabled = false) :
    ({ request with z := some z }).generate options now = ({ request with z := none }).generate options now :=
  generate_congr_z (by simp [off])

end SweepRequest

theorem Provenance.isFinite_toJson (provenance : Provenance) : provenance.toJson.isFinite = true := by
  obtain ⟨generatedBy, generatedAt, x, y, z⟩ := provenance
  cases z <;>
    simp [toJson, PlotParams.toJson, PlotParams.entryJson, Json.isFinite, Json.membersFinite, Scalar.isFinite_toJson]

section

variable {ε : Type} {serializer : Serializer ε}

theorem SweepState.addBy_eq (faithful : serializer.Faithful) (state : SweepState) (options : SweepOptions)
    (template : String) (v : Variant) : state.addBy serializer options template v = .ok (state.add options template v) := by
  rw [addBy, faithful.value _ v.provenance.isFinite_toJson]
  rfl

theorem SweepRequest.generateBy_eq (faithful : serializer.Faithful) (request : SweepRequest) (options : SweepOptions)
    (now : Instant) : request.generateBy serializer options now = (request.generate options now).mapError .sweep := by
  unfold generateBy generate
  cases request.resolveAxes options.catalog with
  | error error => rfl
  | ok axes =>
    simp only [SweepState.addBy_eq faithful]
    change ((List.foldlM (fun s c => pure _) _ (Combination.all axes)) >>= _) = _
    rw [List.foldlM_pure]
    rfl

end

namespace SweepRequest

variable {request : SweepRequest} {options : SweepOptions} {now : Instant} {report : SweepReport}

theorem isFinite_effectiveBase (base : (Json.obj request.base).isFinite = true)
    (common : (Json.obj request.common).isFinite = true) (catalog : Catalog) :
    (Json.obj (request.effectiveBase catalog).1).isFinite = true := by
  have merged := Document.isFinite_merge request.common request.base (Json.isFinite_obj_iff.1 common) base
  unfold effectiveBase
  cases request.initImage with
  | none => exact merged
  | some image => exact Document.isFinite_apply merged image catalog.initImage

/-- A value of an axis that is not finite is written as null, so that every document is a JSON value. -/
theorem isFinite_document (base : (Json.obj request.base).isFinite = true)
    (common : (Json.obj request.common).isFinite = true) (run : request.generate options now = .ok report)
    {artifact : Artifact} (h : artifact ∈ report.artifacts) : (Json.obj artifact.document).isFinite = true := by
  obtain ⟨i, hi⟩ := List.mem_iff_getElem?.1 h
  obtain ⟨c, name, hc, -⟩ := artifact_getElem? run hi
  rw [document_of_assignments run hi hc]
  refine Document.isFinite_put (Document.isFinite_dropStale (Document.isFinite_put
    (Document.isFinite_writeAll (isFinite_effectiveBase base common _) fun write hw => ?_)
    (Prompts.isFinite_toJson _) _) _) (Provenance.isFinite_toJson _) _
  obtain ⟨a, -, rfl⟩ := List.mem_map.1 hw
  exact Scalar.isFinite_toJson a.value

theorem toFiles_eq {ε : Type} {serializer : Serializer ε} (faithful : serializer.Faithful)
    (base : (Json.obj request.base).isFinite = true) (common : (Json.obj request.common).isFinite = true)
    (run : request.generate options now = .ok report) :
    report.toFiles serializer = .ok (report.artifacts.map Artifact.file) := by
  have each : ∀ artifact ∈ report.artifacts, serializer.text (.obj artifact.document) = .ok artifact.content :=
    fun artifact h => faithful.text _ (isFinite_document base common run h)
  rw [SweepReport.toFiles]
  generalize report.artifacts = artifacts at each
  induction artifacts with
  | nil => rfl
  | cons artifact artifacts ih =>
    obtain ⟨here, later⟩ := List.forall_mem_cons.1 each
    rw [List.mapM_cons, here, ih later]
    rfl

/-- A run fails just if an axis in use has a blank field or comes to no values, and its error is that of the first slot
    without a field, or else of the first without values. A disabled Z axis changes nothing, and serializing never fails,
    neither the provenance within a run nor the documents of its report. -/
theorem generate_fails_iff (inSlots : request.InSlots) (options : SweepOptions) (now : Instant) :
    ((∃ error, request.generate options now = .error error) ↔ ∃ slot ∈ request.slots,
      Text.isBlankText slot.2.field = true ∨ (slot.2.resolve options.catalog).values = []) ∧
    (∀ error, request.generate options now = .error error ↔ request.Refuses options.catalog error) ∧
    (∀ z : Axis, z.enabled = false →
      ({ request with z := some z }).generate options now = ({ request with z := none }).generate options now) ∧
    ∀ (ε : Type) (serializer : Serializer ε), serializer.Faithful →
      request.generateBy serializer options now = (request.generate options now).mapError .sweep ∧
      ((Json.obj request.base).isFinite = true → (Json.obj request.common).isFinite = true →
        ∀ report, request.generate options now = .ok report →
          report.toFiles serializer = .ok (report.artifacts.map Artifact.file)) := by
  refine ⟨?_, fun error => generate_eq_error_iff inSlots, fun z off => generate_of_disabled off,
    fun ε serializer faithful => ⟨generateBy_eq faithful request options now, fun base common report run =>
      toFiles_eq faithful base common run⟩⟩
  rw [← exists_refuses_iff]
  exact exists_congr fun error => generate_eq_error_iff inSlots

def strictSerializer : Serializer String where
  value v := if v.isFinite then .ok v else .error "number out of range"
  text v := if v.isFinite then .ok v.pretty else .error "number out of range"

theorem faithful_strictSerializer : strictSerializer.Faithful :=
  ⟨fun _ finite => if_pos finite, fun _ finite => if_pos finite⟩

def optionlessRequest : SweepRequest where
  base := []
  x := { name := .x, field := "steps", expressions := ["10-20 (+5)"] }
  y := { name := .y, field := " sampler ", expressions := ["euler"] }

/-- A sweep with a value that is no number, over a base with a fraction. -/
def overflowingRequest : SweepRequest where
  base := [("strength", .real (Binary64.ofRatio false 1 2))]
  x := { name := .x, field := "cfg_scale", expressions := [Row.infiniteStep] }
  y := { name := .y, field := "seed", expressions := ["7"] }

theorem generate_fails_iff_optionless :
    optionlessRequest.generate {} ⟨0, 0⟩ = .error (.emptyAxis .y "sampler") ∧
      ({ optionlessRequest with z := some { name := .z, enabled := false } }).generate {} ⟨0, 0⟩ =
        ({ optionlessRequest with z := none }).generate {} ⟨0, 0⟩ ∧
      ∃ report, overflowingRequest.generate {} ⟨0, 0⟩ = .ok report ∧
        overflowingRequest.generateBy strictSerializer {} ⟨0, 0⟩ = .ok report ∧
        report.toFiles strictSerializer = .ok (report.artifacts.map Artifact.file) := by
  obtain ⟨-, errors, disabled, -⟩ := generate_fails_iff (⟨rfl, rfl, nofun⟩ : optionlessRequest.InSlots) {} ⟨0, 0⟩
  obtain ⟨-, -, -, serialized⟩ := generate_fails_iff (⟨rfl, rfl, nofun⟩ : overflowingRequest.InSlots) {} ⟨0, 0⟩
  obtain ⟨alike, files⟩ := serialized _ strictSerializer faithful_strictSerializer
  have field : Text.trim optionlessRequest.y.field = "sampler" := by decide
  have steps : (optionlessRequest.x.resolve {}).values ≠ [] := by
    rw [Axis.resolve_values rfl, ne_eq, Scalar.distinct_eq_nil_iff]
    nofun
  have samplers : (optionlessRequest.y.resolve {}).values = [] := by
    rw [Axis.resolve_values rfl, Scalar.distinct_eq_nil_iff]
    rfl
  have refused : optionlessRequest.Refuses {} (.emptyAxis .y (Text.trim optionlessRequest.y.field)) := by
    have order : optionlessRequest.slots = [(.x, optionlessRequest.x)] ++ (.y, optionlessRequest.y) :: [] := rfl
    exact .emptyAxis (by decide) order samplers (List.forall_mem_singleton.2 steps)
  have swept : ∀ axis ∈ overflowingRequest.activeAxes,
      axis.hasField = true ∧ axis.contributed ({} : SweepOptions).catalog ≠ [] := by
    refine List.forall_mem_cons.2 ⟨⟨rfl, ?_⟩, List.forall_mem_singleton.2 ⟨rfl, nofun⟩⟩
    change List.flatMap _ [Contribution.ofExpression .x Row.infiniteStep] ≠ _
    simp [Contribution.ofExpression, Row.ofText_infiniteStep]
  obtain ⟨report, run⟩ := exists_generate_eq_ok swept ⟨0, 0⟩
  exact ⟨(errors _).2 (field ▸ refused), disabled _ rfl, report, run, by rw [alike, run]; rfl, files (by decide) rfl report run⟩

end SweepRequest

end SettingsSweep

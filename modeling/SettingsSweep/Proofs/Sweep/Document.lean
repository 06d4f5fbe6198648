import SettingsSweep.Proofs.Sweep.Override
import SettingsSweep.Proofs.Sweep.Product

/-!
The document of an artifact, told from the base and the recorded values alone: every swept field reads as
its value, the provenance stands at its key, and whatever no axis touches reads as in the base.
-/

set_option autoImplicit false

namespace SettingsSweep

namespace SweepRequest

-- Paths are compared by their fields here; unification must not start to split texts.
attribute [local irreducible] Text.segments

def sweptAxes (request : SweepRequest) (catalog : Catalog) : List Axis :=
  request.activeAxes.filter fun axis => catalog.classify axis.path ≠ .prompts

/-- What a run assigns for recorded values. -/
def assigned (request : SweepRequest) (catalog : Catalog) (params : PlotParams) :
    List Assignment :=
  request.activeAxes.filterMap fun axis =>
    (params.get? axis.name).map fun v =>
      ⟨axis.name, axis.path, catalog.classify axis.path, axis.promptMode, v.value⟩

/-- The effective base with all recorded values of fields that are no prompts. -/
def written (request : SweepRequest) (catalog : Catalog) (params : PlotParams) : Document :=
  (request.effectiveBase catalog).1.writeAll (Assignment.writes (request.assigned catalog params))

def frames (request : SweepRequest) (catalog : Catalog) (params : PlotParams) : Prompts :=
  Assignment.mergeAll (request.initialPrompts catalog) (request.assigned catalog params)

/-- A document before image settings are removed from it. -/
def prompted (request : SweepRequest) (catalog : Catalog) (params : PlotParams) : Document :=
  (request.written catalog params).put catalog.promptsField (request.frames catalog params).toJson

variable {request : SweepRequest} {options : SweepOptions} {now : Instant} {report : SweepReport}

theorem promptMode_x (slots : request.InSlots) : request.promptMode .x = request.x.promptMode := by
  cases hz : request.activeZ with
  | none => simp [promptMode, activeAxes, hz, slots.x, slots.y]
  | some z => simp [promptMode, activeAxes, hz, slots.x, slots.y, slots.z z hz]

theorem promptMode_y (slots : request.InSlots) : request.promptMode .y = request.y.promptMode := by
  cases hz : request.activeZ with
  | none => simp [promptMode, activeAxes, hz, slots.y]
  | some z => simp [promptMode, activeAxes, hz, slots.y, slots.z z hz]

theorem promptMode_z (slots : request.InSlots) {z : Axis} (hz : request.activeZ = some z) :
    request.promptMode .z = z.promptMode := by
  simp [promptMode, activeAxes, hz, slots.z z hz]

theorem assignments_eq (slots : request.InSlots) (catalog : Catalog) (c : Combination) :
    c.assignments request (request.sweepAxes catalog) =
      request.assigned catalog (request.recorded c) := by
  have hx := promptMode_x slots
  have hy := promptMode_y slots
  cases hz : request.activeZ with
  | none =>
    simp [Combination.assignments, Combination.entries, sweepAxes, assigned, recorded, activeAxes,
      PlotParams.get?, hz, hx, hy, slots.x, slots.y, Axis.resolve_name, Axis.resolve_field,
      Axis.resolve_kind]
  | some z =>
    have hm := promptMode_z slots hz
    cases hc : c.z <;>
      simp [Combination.assignments, Combination.entries, sweepAxes, assigned, recorded, activeAxes,
        PlotParams.get?, hz, hc, hm, hx, hy, slots.x, slots.y, slots.z z hz, Axis.resolve_name,
        Axis.resolve_field, Axis.resolve_kind]

theorem exists_recorded (slots : request.InSlots) (run : request.generate options now = .ok report)
    {artifact : Artifact} (h : artifact ∈ report.artifacts) {axis : Axis}
    (ha : axis ∈ request.activeAxes) :
    ∃ v, artifact.provenance.params.get? axis.name = some ⟨axis.path, v⟩ := by
  obtain ⟨i, hi⟩ := List.mem_iff_getElem?.1 h
  obtain ⟨c, hc, hp, -⟩ := artifact_records slots run hi
  obtain ⟨-, -, -, hz⟩ := places_of_getElem? run hc
  rw [hp]
  rcases List.mem_cons.1 ha with rfl | ha
  · exact ⟨c.x, by rw [slots.x]; rfl⟩
  rcases List.mem_cons.1 ha with rfl | ha
  · exact ⟨c.y, by rw [slots.y]; rfl⟩
  have some : request.activeZ = some axis := Option.mem_toList.1 ha
  obtain ⟨v, hv, -⟩ := hz axis some
  refine ⟨v, ?_⟩
  rw [slots.z axis some]
  simp [PlotParams.get?, recorded, some, hv]

theorem variant_document (request : SweepRequest) (options : SweepOptions) (now : Instant)
    (axes : SweepAxes) (base : Document) (prompts : Prompts) (c : Combination) :
    (request.variant options now axes base prompts c).document =
      Document.dropStale options.catalog.initImage
        (((Draft.mk base prompts).assignAll (c.assignments request axes)).1.document.put
          options.catalog.promptsField
          ((Draft.mk base prompts).assignAll (c.assignments request axes)).1.prompts.toJson) := rfl

theorem document_of_assignments (run : request.generate options now = .ok report) {i : Nat}
    {artifact : Artifact} (h : report.artifacts[i]? = some artifact) {c : Combination}
    (hc : (Combination.all report.axes)[i]? = some c) :
    artifact.document = Dict.put Provenance.key artifact.provenance.toJson
      (Document.dropStale options.catalog.initImage
        (((request.effectiveBase options.catalog).1.writeAll
            (Assignment.writes (c.assignments request report.axes))).put
          options.catalog.promptsField
          (Assignment.mergeAll (request.initialPrompts options.catalog)
            (c.assignments request report.axes)).toJson)) := by
  obtain ⟨c', name, hc', rfl⟩ := artifact_getElem? run h
  obtain rfl := Option.some.inj (hc.symm.trans hc')
  rw [Variant.artifact, variantOf, variant_document, Draft.assignAll_eq]

theorem document_eq (slots : request.InSlots) (run : request.generate options now = .ok report)
    {artifact : Artifact} (h : artifact ∈ report.artifacts) :
    artifact.document = Dict.put Provenance.key artifact.provenance.toJson
      (Document.dropStale options.catalog.initImage
        (request.prompted options.catalog artifact.provenance.params)) := by
  obtain ⟨i, hi⟩ := List.mem_iff_getElem?.1 h
  obtain ⟨c, hc, params, -⟩ := artifact_records slots run hi
  rw [document_of_assignments run hi (axes_eq run ▸ hc), axes_eq run, assignments_eq slots, params]
  rfl

theorem writes_assigned (request : SweepRequest) (catalog : Catalog) (params : PlotParams) :
    Assignment.writes (request.assigned catalog params) =
      (request.sweptAxes catalog).filterMap fun axis =>
        (params.get? axis.name).map fun v => (Text.segments axis.path, v.value.toJson) := by
  rw [assigned, sweptAxes]
  induction request.activeAxes with
  | nil => rfl
  | cons axis axes ih =>
    unfold Assignment.writes at ih ⊢
    by_cases hk : catalog.classify axis.path = .prompts
    · cases hv : params.get? axis.name <;> simpa [hk, hv] using ih
    · cases hv : params.get? axis.name <;> simpa [hk, hv] using ih

theorem path_of_mem_writes {catalog : Catalog} {params : PlotParams} {w : List String × Json}
    (h : w ∈ Assignment.writes (request.assigned catalog params)) :
    ∃ axis ∈ request.sweptAxes catalog, w.1 = Text.segments axis.path := by
  rw [writes_assigned] at h
  obtain ⟨axis, ha, hw⟩ := List.mem_filterMap.1 h
  obtain ⟨v, -, rfl⟩ := Option.map_eq_some_iff.1 hw
  exact ⟨axis, ha, rfl⟩

theorem pairwise_writes {catalog : Catalog}
    (apart : (request.sweptAxes catalog).Pairwise fun a b =>
      ¬ Overlap (Text.segments a.path) (Text.segments b.path)) (params : PlotParams) :
    ((Assignment.writes (request.assigned catalog params)).map Prod.fst).Pairwise
      fun p q => ¬ Overlap p q := by
  rw [writes_assigned, List.pairwise_map, List.pairwise_filterMap]
  refine apart.imp ?_
  intro a b hab u hu w hw
  have eu : u.1 = Text.segments a.path := by
    obtain ⟨v, -, rfl⟩ := Option.map_eq_some_iff.1 hu
    rfl
  have ew : w.1 = Text.segments b.path := by
    obtain ⟨v, -, rfl⟩ := Option.map_eq_some_iff.1 hw
    rfl
  rw [eu, ew]
  exact hab

theorem getAt?_written {catalog : Catalog}
    (apart : (request.sweptAxes catalog).Pairwise fun a b =>
      ¬ Overlap (Text.segments a.path) (Text.segments b.path))
    {params : PlotParams} {axis : Axis} (ha : axis ∈ request.sweptAxes catalog) {v : AxisValue}
    (hv : params.get? axis.name = some v) :
    (request.written catalog params).getAt? (Text.segments axis.path) = some v.value.toJson := by
  have hw : (Text.segments axis.path, v.value.toJson) ∈
      Assignment.writes (request.assigned catalog params) := by
    rw [writes_assigned]
    exact List.mem_filterMap.2 ⟨axis, ha, by rw [hv]; rfl⟩
  exact Document.getAt?_writeAll_of_mem (pairwise_writes apart params) hw
    (Text.segments_ne_nil axis.path) _

theorem getAt?_written_of_beside {catalog : Catalog} {path : List String}
    (beside : ∀ axis ∈ request.sweptAxes catalog, ¬ Overlap path (Text.segments axis.path))
    (params : PlotParams) : (request.written catalog params).getAt? path =
      (request.effectiveBase catalog).1.getAt? path := by
  refine Document.getAt?_writeAll_of_not_overlap ?_ _
  intro w hw
  obtain ⟨axis, ha, same⟩ := path_of_mem_writes hw
  rw [same]
  exact beside axis ha

theorem getAt?_document (slots : request.InSlots)
    (run : request.generate options now = .ok report) {artifact : Artifact}
    (h : artifact ∈ report.artifacts) {path : List String}
    (hm : path.head? ≠ some Provenance.key)
    (hn : ¬ (request.prompted options.catalog artifact.provenance.params).Dropped
      options.catalog.initImage path) :
    artifact.document.getAt? path =
      (request.prompted options.catalog artifact.provenance.params).getAt? path := by
  rw [document_eq slots run h, Document.getAt?_put_of_head_ne hm,
    Document.getAt?_dropStale_of_not_dropped hn]

theorem getAt?_document_of_dropped (slots : request.InSlots)
    (run : request.generate options now = .ok report) {artifact : Artifact}
    (h : artifact ∈ report.artifacts) {path : List String}
    (hm : path.head? ≠ some Provenance.key)
    (hd : (request.prompted options.catalog artifact.provenance.params).Dropped
      options.catalog.initImage path) : artifact.document.getAt? path = none := by
  rw [document_eq slots run h, Document.getAt?_put_of_head_ne hm,
    Document.getAt?_dropStale_of_dropped hd]

/-- What holds of the document of an artifact: no swept value is lost but with the image settings, the
    provenance is there, and all else is the base. -/
structure Faithful (request : SweepRequest) (catalog : Catalog) (artifact : Artifact) : Prop where
  swept : ∀ axis ∈ request.sweptAxes catalog, ∃ v,
    artifact.provenance.params.get? axis.name = some ⟨axis.path, v⟩ ∧
      (¬ artifact.document.Dropped catalog.initImage (Text.segments axis.path) →
        artifact.document.get? axis.path = some v.toJson)
  dropped : ∀ path, artifact.document.Dropped catalog.initImage path →
    artifact.document.getAt? path = none
  provenance : artifact.document.get? Provenance.key = some artifact.provenance.toJson
  kept : ∀ path : List String,
    (∀ axis ∈ request.sweptAxes catalog, ¬ Overlap path (Text.segments axis.path)) →
    path.head? ≠ some Provenance.key → path.head? ≠ some catalog.promptsField →
    ¬ artifact.document.Dropped catalog.initImage path →
      artifact.document.getAt? path = (request.effectiveBase catalog).1.getAt? path

/-- The fields of a run do not stand in each other's way. -/
theorem documents_faithful (slots : request.InSlots)
    (names : (Provenance.key :: options.catalog.initImage.flag ::
      options.catalog.initImage.dependents).Nodup)
    (apart : (request.sweptAxes options.catalog).Pairwise fun a b =>
      ¬ Overlap (Text.segments a.path) (Text.segments b.path))
    (heads : ∀ axis ∈ request.sweptAxes options.catalog,
      (Text.segments axis.path).head? ≠ some Provenance.key ∧
        (Text.segments axis.path).head? ≠ some options.catalog.promptsField)
    (run : request.generate options now = .ok report) :
    ∀ artifact ∈ report.artifacts, request.Faithful options.catalog artifact := by
  intro artifact h
  obtain ⟨key_notMem, names⟩ := List.nodup_cons.1 names
  have flag_notMem := (List.nodup_cons.1 names).1
  have flag_ne : options.catalog.initImage.flag ≠ Provenance.key :=
    fun e => key_notMem (e ▸ List.mem_cons_self)
  -- The flag is neither dropped nor covered by the provenance: all steps see the same one.
  have flag : artifact.document.find? options.catalog.initImage.flag =
      (request.prompted options.catalog artifact.provenance.params).find?
        options.catalog.initImage.flag := by
    rw [document_eq slots run h, Dict.find?_put_of_ne flag_ne,
      Document.find?_dropStale_of_notMem flag_notMem]
  have dropped_iff (path : List String) :
      artifact.document.Dropped options.catalog.initImage path ↔
        (request.prompted options.catalog artifact.provenance.params).Dropped
          options.catalog.initImage path := by
    rw [Document.Dropped, Document.ImageOff, flag]
    rfl
  have reads (path : List String) (hm : path.head? ≠ some Provenance.key)
      (hp : path.head? ≠ some options.catalog.promptsField)
      (hn : ¬ artifact.document.Dropped options.catalog.initImage path) :
      artifact.document.getAt? path =
        (request.written options.catalog artifact.provenance.params).getAt? path := by
    rw [dropped_iff] at hn
    rw [getAt?_document slots run h hm hn, prompted, Document.getAt?_put_of_head_ne hp]
  refine ⟨?_, ?_, ?_, ?_⟩
  · intro axis ha
    obtain ⟨hm, hp⟩ := heads axis ha
    obtain ⟨v, hv⟩ := exists_recorded slots run h (List.mem_of_mem_filter ha)
    refine ⟨v, hv, fun hn => ?_⟩
    rw [Document.get?, reads _ hm hp hn, getAt?_written apart ha hv]
  · intro path hn
    have hm : path.head? ≠ some Provenance.key := by
      obtain ⟨-, key, hk, head⟩ := hn
      intro e
      obtain rfl := Option.some.inj (head.symm.trans e)
      exact key_notMem (List.mem_cons_of_mem _ hk)
    exact getAt?_document_of_dropped slots run h hm ((dropped_iff path).1 hn)
  · have segment : Text.segments Provenance.key = [Provenance.key] := by decide +kernel
    rw [document_eq slots run h, Document.get?, segment]
    exact Dict.find?_put_self _ _ _
  · intro path beside hm hp hn
    rw [reads path hm hp hn, getAt?_written_of_beside beside]

/-- A sweep below a path of its base, next to one over an image setting without an image. -/
def nestedRequest : SweepRequest where
  base := [("use_init", .bool false), ("model", .obj [("clip", .int 2), ("vae", .str "a")])]
  x := { name := .x, field := "model.vae", expressions := ["b, c"] }
  y := { name := .y, field := "strength", expressions := ["low"] }
  z := some { name := .z, field := "prompts", expressions := ["rain"] }

theorem inSlots_nested : nestedRequest.InSlots := ⟨rfl, rfl, by rintro z ⟨⟩; rfl⟩

theorem exists_generate_nested : ∃ report, nestedRequest.generate {} ⟨0, 0⟩ = .ok report := by
  have axes : ∀ axis ∈ nestedRequest.activeAxes,
      axis.hasField = true ∧ axis.contributed ({} : SweepOptions).catalog ≠ [] := by
    decide +kernel
  exact exists_generate_eq_ok axes ⟨0, 0⟩

theorem segments_nested : (nestedRequest.sweptAxes ({} : SweepOptions).catalog).map
    (fun axis => Text.segments axis.path) = [["model", "vae"], ["strength"]] := by
  decide +kernel

theorem apart_nested : (nestedRequest.sweptAxes ({} : SweepOptions).catalog).Pairwise fun a b =>
    ¬ Overlap (Text.segments a.path) (Text.segments b.path) := by
  have h : ((nestedRequest.sweptAxes ({} : SweepOptions).catalog).map
      fun axis => Text.segments axis.path).Pairwise fun p q => ¬ Overlap p q := by
    rw [segments_nested]
    simp [Overlap]
  exact List.pairwise_map.1 h

theorem documents_faithful_nested :
    ∃ report, nestedRequest.generate {} ⟨0, 0⟩ = .ok report ∧ nestedRequest.InSlots ∧
      ∀ artifact ∈ report.artifacts,
        nestedRequest.Faithful ({} : SweepOptions).catalog artifact ∧
          artifact.document.get? "model.clip" = some (.int 2) := by
  have heads : ∀ path ∈ (nestedRequest.sweptAxes ({} : SweepOptions).catalog).map
      (fun axis => Text.segments axis.path), path.head? ≠ some Provenance.key ∧
        path.head? ≠ some ({} : SweepOptions).catalog.promptsField := by
    rw [segments_nested]
    decide +kernel
  have beside : ∀ path ∈ (nestedRequest.sweptAxes ({} : SweepOptions).catalog).map
      (fun axis => Text.segments axis.path), ¬ Overlap ["model", "clip"] path := by
    rw [segments_nested]
    simp [Overlap]
  have path : Text.segments "model.clip" = ["model", "clip"] := by decide +kernel
  have base : (nestedRequest.effectiveBase ({} : SweepOptions).catalog).1.getAt?
      ["model", "clip"] = some (.int 2) := rfl
  obtain ⟨report, run⟩ := exists_generate_nested
  have faithful := documents_faithful inSlots_nested (by decide +kernel) apart_nested
    (List.forall_mem_map.1 heads) run
  refine ⟨report, run, inSlots_nested, fun artifact h => ⟨faithful artifact h, ?_⟩⟩
  rw [Document.get?, path, (faithful artifact h).kept _
    (fun axis ha => beside _ (List.mem_map.2 ⟨axis, ha, rfl⟩)) (by decide) (by decide +kernel) ?_,
    base]
  rintro ⟨-, key, hk, head⟩
  obtain rfl := Option.some.inj head
  exact absurd hk (by decide +kernel)

end SweepRequest

end SettingsSweep

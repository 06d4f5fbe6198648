import SettingsSweep.Proofs.Axis.NumeralGrammar
import SettingsSweep.Proofs.Naming.Template
import SettingsSweep.Proofs.Sweep.Document
import Mathlib.Data.List.TakeWhile

/-!
The name preview against the first file of a sweep. Both fill one template, but the preview has only the
base to read settings from, and the file is named after its own document.
-/

set_option autoImplicit false

namespace SettingsSweep

def Variable.keys : Variable → List String
  | .timestring | .filename | .param _ | .value _ => []
  | .seed => ["seed"]
  | .seedBehavior => ["seed_behavior"]
  | .width => ["W"]
  | .height => ["H"]
  | .steps => ["steps"]
  | .cfgScale => ["cfg_scale"]
  | .sampler => ["sampler"]
  | .strength => ["strength", "strength_schedule"]
  | .maxFrames => ["max_frames"]

theorem Variable.provenance_notMem_keys (v : Variable) : Provenance.key ∉ v.keys := by
  cases v with
  | param axis => exact List.not_mem_nil
  | value axis => exact List.not_mem_nil
  | _ => decide

namespace FileName

theorem variableText_congr (context : Context) {settings other : Document}
    (options : NamingOptions) {v : Variable}
    (h : ∀ key ∈ v.keys, settings.find? key = other.find? key) :
    variableText context settings options v = variableText context other options v := by
  cases v with
  | strength =>
    have value := h "strength" (by decide)
    have schedule := h "strength_schedule" (by decide)
    simp only [variableText, strength?, value, schedule]
  | timestring => rfl
  | filename => rfl
  | param axis => rfl
  | value axis => rfl
  | _ => simp only [variableText, h _ List.mem_cons_self]

theorem ofTemplate_congr (template : String) (context : Context) {settings other : Document}
    (options : NamingOptions)
    (h : ∀ v ∈ Template.slots template,
      variableText context settings options v = variableText context other options v) :
    ofTemplate template context settings options = ofTemplate template context other options :=
  congrArg (· ++ options.extension) (Template.fill_congr h)

theorem ofTemplate_put_provenance (template : String) (context : Context) (provenance : Json)
    (settings : Document) (options : NamingOptions) :
    ofTemplate template context (Dict.put Provenance.key provenance settings) options =
      ofTemplate template context settings options := by
  refine ofTemplate_congr _ _ _ fun v _ => variableText_congr _ _ fun key hk => ?_
  have ne : key ≠ Provenance.key := fun e => v.provenance_notMem_keys (e ▸ hk)
  exact Dict.find?_put_of_ne ne _ _

end FileName

theorem Axis.path_ne_empty {axis : Axis} (h : axis.hasField = true) : axis.path ≠ "" := by
  intro empty
  have blank : axis.field.toList.all Text.isBlank = true := List.all_eq_true.2
    (Text.trimChars_eq_nil_iff.1 (String.ofList_injective (empty : String.ofList _ = String.ofList [])))
  rw [hasField, Text.isBlankText, blank] at h
  cases h

namespace SweepRequest

variable {request : SweepRequest} {options : SweepOptions} {now : Instant} {report : SweepReport}

theorem first_values (run : request.generate options now = .ok report) {c : Combination}
    (hc : (Combination.all (request.sweepAxes options.catalog))[0]? = some c) :
    (request.x.resolve options.catalog).values.head? = some c.x ∧
      (request.y.resolve options.catalog).values.head? = some c.y ∧
      ∀ z, request.activeZ = some z → ∃ v, c.z = some v ∧
        (z.resolve options.catalog).values.head? = some v := by
  obtain ⟨hx, hy, -, hz⟩ := places_of_getElem? run hc
  simp only [Nat.zero_mod, Nat.zero_div] at hx hy hz
  simp only [List.head?_eq_getElem?]
  exact ⟨hx, hy, hz⟩

def axisIn (request : SweepRequest) : AxisName → Option Axis
  | .x => some request.x
  | .y => some request.y
  | .z => request.activeZ

theorem find?_resolved (slots : request.InSlots) (catalog : Catalog)
    (fields : ∀ axis ∈ request.activeAxes, axis.hasField = true) (name : AxisName) :
    ((request.activeAxes.map fun axis => axis.resolve catalog).find? fun a =>
        a.name = name ∧ a.field ≠ "") =
      (request.axisIn name).map fun axis => axis.resolve catalog := by
  have px := Axis.path_ne_empty (fields request.x (by simp [activeAxes]))
  have py := Axis.path_ne_empty (fields request.y (by simp [activeAxes]))
  cases hz : request.activeZ with
  | none =>
    cases name <;>
      simp [activeAxes, axisIn, hz, Axis.resolve_name, Axis.resolve_field, slots.x, slots.y, px, py]
  | some z =>
    have pz := Axis.path_ne_empty (fields z (by simp [activeAxes, hz]))
    cases name <;>
      simp [activeAxes, axisIn, hz, Axis.resolve_name, Axis.resolve_field, slots.x, slots.y,
        slots.z z hz, px, py, pz]

/-- A preview of all axes in use has the fields and values of the first combination. -/
theorem previewContext_eq (slots : request.InSlots)
    (run : request.generate options now = .ok report) {c : Combination}
    (hc : (Combination.all (request.sweepAxes options.catalog))[0]? = some c) :
    FileName.previewContext now (request.activeAxes.map fun axis => axis.resolve options.catalog) =
      FileName.combinationContext now (request.recorded c).get? := by
  have fields : ∀ axis ∈ request.activeAxes, axis.hasField = true :=
    fun axis ha => ((resolveAxes_eq_ok_iff.1 (generate_eq_ok run).1).2 axis ha).1
  obtain ⟨hx, hy, hz⟩ := first_values run hc
  have found := find?_resolved slots options.catalog fields
  unfold FileName.previewContext FileName.combinationContext
  simp only [found]
  congr 1
  · funext name
    cases name with
    | x => simp [axisIn, recorded, PlotParams.get?, Axis.resolve_field]
    | y => simp [axisIn, recorded, PlotParams.get?, Axis.resolve_field]
    | z =>
      cases some : request.activeZ with
      | none => simp [axisIn, recorded, PlotParams.get?, some]
      | some z =>
        obtain ⟨v, hv, -⟩ := hz z some
        simp [axisIn, recorded, PlotParams.get?, Axis.resolve_field, some, hv]
  · funext name
    cases name with
    | x => simp [axisIn, recorded, PlotParams.get?, hx]
    | y => simp [axisIn, recorded, PlotParams.get?, hy]
    | z =>
      cases some : request.activeZ with
      | none => simp [axisIn, recorded, PlotParams.get?, some]
      | some z =>
        obtain ⟨v, hv, head⟩ := hz z some
        simp [axisIn, recorded, PlotParams.get?, some, hv, head]

theorem exists_first (run : request.generate options now = .ok report) :
    ∃ first rest, report.artifacts = first :: rest := by
  have nonempty := values_ne_nil run
  have px := List.length_pos_iff.2 (nonempty request.x (by simp [activeAxes]))
  have py := List.length_pos_iff.2 (nonempty request.y (by simp [activeAxes]))
  have pz : 0 < ((request.activeZ.map fun z => (z.resolve options.catalog).values).map
      List.length).getD 1 := by
    cases hz : request.activeZ with
    | none => exact Nat.one_pos
    | some z => exact List.length_pos_iff.2 (nonempty z (by simp [activeAxes, hz]))
  apply List.exists_cons_of_length_pos
  rw [length_artifacts_eq run]
  exact Nat.mul_pos (Nat.mul_pos px py) pz

theorem exists_first_of_combinations (run : request.generate options now = .ok report)
    {c : Combination} {others : List Combination}
    (h : Combination.all (request.sweepAxes options.catalog) = c :: others) :
    ∃ first rest, report.artifacts = first :: rest ∧ (Combination.all report.axes)[0]? = some c := by
  obtain ⟨first, rest, files⟩ := exists_first run
  exact ⟨first, rest, files, by rw [axes_eq run, h]; rfl⟩

/-- No name is in use yet when the first file gets its own, so the policy does not matter. -/
theorem first_filename (run : request.generate options now = .ok report) {first : Artifact}
    {rest : List Artifact} (h : report.artifacts = first :: rest) :
    first.filename = FileName.ofTemplate (template options report.axes)
      (FileName.combinationContext now first.provenance.params.get?) first.document
      options.naming := by
  obtain ⟨c, name, hc, eq⟩ := artifact_getElem? run (i := 0) (by rw [h]; rfl)
  obtain rfl := eq
  have free (name : String) : (({} : NameRegistry).claim options.naming name).2 = ⟨name, false⟩ :=
    NameRegistry.claim_of_free options.naming List.not_mem_nil List.not_mem_nil
  have given : (request.nameClaims options now report.axes)[0]?.map (·.name) =
      some ((request.variantOf options now report.axes c).stem options
        (template options report.axes) ++ options.naming.extension) := by
    rw [nameClaims, NameRegistry.claims_getElem?, renderedNames, stems, variants, List.getElem?_map,
      List.getElem?_map, List.getElem?_map, hc]
    exact congrArg (fun claim => some claim.name) (free _)
  have files := congrArg (·[0]?) (filenames_eq run)
  rw [h] at files
  simp only [List.map_cons, List.getElem?_cons_zero, List.getElem?_map, given] at files
  rw [Option.some.inj files]
  exact (FileName.ofTemplate_put_provenance _ _ _ _ _).symm

/-- Nothing in the making of a document touches the key: no swept field starts with it, it is not where
    the prompts go, and it does not go with the initial image. -/
structure Untouched (request : SweepRequest) (catalog : Catalog) (params : PlotParams)
    (key : String) : Prop where
  swept : ∀ axis ∈ request.sweptAxes catalog, (Text.segments axis.path).head? ≠ some key
  prompts : key ≠ catalog.promptsField
  kept : ¬ (request.prompted catalog params).Dropped catalog.initImage [key]

theorem find?_document_of_untouched (slots : request.InSlots)
    (run : request.generate options now = .ok report) {artifact : Artifact}
    (h : artifact ∈ report.artifacts) {key : String} (ne : key ≠ Provenance.key)
    (untouched : request.Untouched options.catalog artifact.provenance.params key) :
    artifact.document.find? key = (request.effectiveBase options.catalog).1.find? key := by
  have beside : ∀ axis ∈ request.sweptAxes options.catalog,
      ¬ Overlap [key] (Text.segments axis.path) := by
    intro axis ha overlap
    refine untouched.swept axis ha ?_
    cases path : Text.segments axis.path with
    | nil => exact absurd path (Text.segments_ne_nil axis.path)
    | cons first keys =>
      rw [path] at overlap
      rcases overlap with prefix' | prefix'
      · rw [(List.cons_prefix_cons.1 prefix').1, List.head?_cons]
      · rw [(List.cons_prefix_cons.1 prefix').1, List.head?_cons]
  have head {other : String} (e : key ≠ other) : ([key] : List String).head? ≠ some other :=
    fun eq => e (Option.some.inj eq)
  -- Backwards through the stages of a document: clean-up, prompts, swept values.
  calc
    artifact.document.find? key = artifact.document.getAt? [key] := rfl
    _ = (request.prompted options.catalog artifact.provenance.params).getAt? [key] :=
      getAt?_document slots run h (head ne) untouched.kept
    _ = (request.written options.catalog artifact.provenance.params).getAt? [key] :=
      Document.getAt?_put_of_head_ne (head untouched.prompts) _ _
    _ = (request.effectiveBase options.catalog).1.getAt? [key] :=
      getAt?_written_of_beside beside _

end SweepRequest

open SweepRequest FileName

/-- The preview of a sweep is the name of its first file as far as the settings in the template read the
    same in the base as in the document of that file. -/
theorem preview_tells_first_filename (base : Document) (x y : Axis) (z : Option Axis)
    (catalog : Catalog) (naming : NamingOptions) (generatedBy template : String) (now : Instant)
    (hx : x.name = .x) (hy : y.name = .y) (hz : ∀ axis ∈ z, axis.name = .z ∧ axis.enabled = true)
    (ready : ∀ axis ∈ x :: y :: z.toList,
      axis.hasField = true ∧ (axis.resolve catalog).values ≠ []) :
    let request : SweepRequest := { base := base, x := x, y := y, z := z }
    let axes := (x :: y :: z.toList).map fun axis => axis.resolve catalog
    let reads (settings : Document) (v : Variable) :=
      variableText (previewContext now axes) settings naming v
    ∃ report first rest,
      request.generate ⟨catalog, { naming with template := some template }, generatedBy⟩ now =
        .ok report ∧
      report.artifacts = first :: rest ∧
      first.filename = preview template axes first.document naming now ∧
      ((∀ v ∈ Template.slots template, reads base v = reads first.document v) →
        preview template axes base naming now = first.filename) ∧
      ((∀ v ∈ Template.slots template, ∀ key ∈ v.keys,
          request.Untouched catalog first.provenance.params key) →
        preview template axes base naming now = first.filename) ∧
      ∀ v ∈ Template.slots template, reads base v ≠ reads first.document v →
        (∀ w ∈ Template.slots template, w ≠ v → reads base w = reads first.document w) →
          preview template axes base naming now ≠ first.filename := by
  intro request axes reads
  have active : request.activeAxes = x :: y :: z.toList := by
    cases z with
    | none => rfl
    | some axis => simp [request, activeAxes, activeZ, (hz axis rfl).2]
  have slots : request.InSlots := by
    refine ⟨hx, hy, fun axis used => (hz axis ?_).1⟩
    exact (Option.filter_eq_some_iff.1 used).1
  obtain ⟨options, hoptions⟩ : ∃ options : SweepOptions,
      options = ⟨catalog, { naming with template := some template }, generatedBy⟩ := ⟨_, rfl⟩
  have resolved : request.resolveAxes options.catalog = .ok (request.sweepAxes options.catalog) :=
    resolveAxes_eq_ok_iff.2 ⟨rfl, by rw [active, hoptions]; exact ready⟩
  have run := generate_of_axes resolved now
  obtain ⟨first, rest, h⟩ := exists_first run
  have mem : first ∈ _ := h ▸ List.mem_cons_self
  obtain ⟨c, hc, hp, -⟩ := artifact_records slots run (i := 0) (by rw [h]; rfl)
  have context := previewContext_eq slots run hc
  have name := first_filename run h
  rw [hp, ← context, active] at name
  subst hoptions
  have truth : first.filename = preview template axes first.document naming now := name
  have same (h : ∀ v ∈ Template.slots template, reads base v = reads first.document v) :
      preview template axes base naming now = first.filename := by
    rw [truth]
    exact ofTemplate_congr template _ naming h
  refine ⟨_, first, rest, run, h, truth, same, fun untouched => same fun v hv => ?_, ?_⟩
  · refine variableText_congr _ naming fun key hk => Eq.symm ?_
    have ne : key ≠ Provenance.key := fun e => v.provenance_notMem_keys (e ▸ hk)
    exact find?_document_of_untouched slots run mem ne (untouched v hv key hk)
  · intro v used differ others
    rw [truth]
    exact Template.fill_append_ne used differ others naming.extension

def seededRequest : SweepRequest where
  base := [("seed", .int 42)]
  x := { name := .x, field := "steps", expressions := ["5, 6"] }
  y := { name := .y, field := "sampler", choices := ["euler"] }

theorem preview_tells_first_filename_seeded :
    ∃ report first rest,
      seededRequest.generate
        ⟨{}, { template := some "\x7bx_value\x7d-\x7bseed\x7d" }, "xyzplot"⟩ ⟨0, 0⟩ = .ok report ∧
      report.artifacts = first :: rest ∧
      preview "\x7bx_value\x7d-\x7bseed\x7d"
        (seededRequest.activeAxes.map fun axis => axis.resolve {}) seededRequest.base {} ⟨0, 0⟩ =
          first.filename := by
  have ready : ∀ axis ∈ seededRequest.activeAxes,
      axis.hasField = true ∧ (axis.resolve {}).values ≠ [] := by
    have rows : ∀ axis ∈ seededRequest.activeAxes,
        axis.hasField = true ∧ axis.contributed {} ≠ [] := by decide +kernel
    intro axis ha
    obtain ⟨field, row⟩ := rows axis ha
    rw [Axis.resolve_values field, ne_eq, Scalar.distinct_eq_nil_iff]
    exact ⟨field, row⟩
  have slots : Template.slots "\x7bx_value\x7d-\x7bseed\x7d" = [.value .x, .seed] := by
    decide +kernel
  have heads : ∀ path ∈ (seededRequest.sweptAxes {}).map fun axis => Text.segments axis.path,
      path.head? ≠ some "seed" := by decide +kernel
  obtain ⟨report, first, rest, run, h, -, -, same, -⟩ := preview_tells_first_filename
    seededRequest.base seededRequest.x seededRequest.y none {} {} "xyzplot"
    "\x7bx_value\x7d-\x7bseed\x7d" ⟨0, 0⟩ rfl rfl (fun _ used => by cases used) ready
  refine ⟨report, first, rest, run, h, same ?_⟩
  rw [slots]
  intro v hv key hk
  rcases List.mem_cons.1 hv with rfl | hv
  · exact absurd hk List.not_mem_nil
  · obtain rfl := List.mem_singleton.1 hv
    obtain rfl := List.mem_singleton.1 hk
    refine ⟨fun axis ha => heads _ (List.mem_map.2 ⟨axis, ha, rfl⟩), by decide, ?_⟩
    rintro ⟨-, dropped, hd, head⟩
    obtain rfl := Option.some.inj head
    exact absurd hd (by decide)

def reseededRequest : SweepRequest where
  base := [("seed", .int 42)]
  x := { name := .x, field := "seed", expressions := ["5, 6"] }
  y := { name := .y, field := "steps", expressions := ["10"] }

/-- The preview shows the seed of the base, and the first file is named after the seed it holds. -/
theorem preview_misses_swept_seed :
    ∃ report first rest, reseededRequest.generate {} ⟨0, 0⟩ = .ok report ∧
      report.artifacts = first :: rest ∧
      first.filename = "19700101_000000_xyz_plot_seed-5_steps-10_Seed-5_CFG-none.txt" ∧
      preview (Template.suggest true true false)
        (reseededRequest.activeAxes.map fun axis => axis.resolve {}) reseededRequest.base {} ⟨0, 0⟩ =
          "19700101_000000_xyz_plot_seed-5_steps-10_Seed-42_CFG-none.txt" := by
  have axes : ∀ axis ∈ reseededRequest.activeAxes,
      axis.hasField = true ∧ axis.contributed ({} : SweepOptions).catalog ≠ [] := by
    decide +kernel
  have slots : reseededRequest.InSlots := ⟨rfl, rfl, by rintro z ⟨⟩⟩
  have combinations : Combination.all (reseededRequest.sweepAxes ({} : SweepOptions).catalog) =
      [⟨.number (.ofInt 5), .number (.ofInt 10), none⟩,
        ⟨.number (.ofInt 6), .number (.ofInt 10), none⟩] := by
    rw [sweepAxes, Axis.resolve_eq (by decide), Axis.resolve_eq (by decide)]
    decide +kernel
  obtain ⟨report, run⟩ := exists_generate_eq_ok axes ⟨0, 0⟩
  obtain ⟨first, rest, h⟩ := exists_first run
  obtain ⟨c, hc, hp, -⟩ := artifact_records slots run (i := 0) (by rw [h]; rfl)
  have context := previewContext_eq slots run hc
  have name := first_filename run h
  have document := document_eq slots run (h ▸ List.mem_cons_self : first ∈ report.artifacts)
  rw [combinations] at hc
  obtain rfl := Option.some.inj hc
  rw [hp] at name document
  refine ⟨report, first, rest, run, h, ?_, ?_⟩
  · rw [name, document, axes_eq run, ofTemplate_put_provenance]
    decide +kernel
  · rw [preview, context]
    decide +kernel

end SettingsSweep

import SettingsSweep.Proofs.Document.Path
import SettingsSweep.Proofs.Naming.Template
import SettingsSweep.Proofs.Sweep.Run

/-!
Two runs of one sweep at two times. The clock shows in the provenance and in the names of the files, and
nowhere else.
-/

set_option autoImplicit false

namespace SettingsSweep

def Warning.quotesFilename : Warning → Bool
  | .duplicateFilename _ => true
  | _ => false

/-- What the reports of one sweep at `t` and at `u` have in common. Each list of segments makes one file
    name, with the time between them. -/
structure SameButTime (options : NamingOptions) (segments : List (List String)) (t u : Instant)
    (r s : SweepReport) : Prop where
  length_eq : r.artifacts.length = s.artifacts.length
  overrides : r.artifacts.map (·.overrides) = s.artifacts.map (·.overrides)
  /-- With the time of the first run, the documents of the second are those of the first. -/
  documents : r.artifacts.map (·.document) =
    s.artifacts.map fun a => a.document.set "meta.generated_at" (.str t.header)
  warnings : r.warnings.filter (!·.quotesFilename) = s.warnings.filter (!·.quotesFilename)
  filenames : options.onDuplicate = .warn →
    r.artifacts.map (·.filename) = segments.map t.stamp.intercalate ∧
      s.artifacts.map (·.filename) = segments.map u.stamp.intercalate

namespace Warning

theorem filter_addNew (p : Warning → Bool) (warnings more : List Warning) :
    (addNew warnings more).filter p = addNew (warnings.filter p) (more.filter p) := by
  induction more generalizing warnings with
  | nil => rfl
  | cons w more ih =>
    change (addNew (if w ∈ warnings then warnings else warnings ++ [w]) more).filter p = _
    rw [ih]
    by_cases hp : p w = true
    · rw [List.filter_cons_of_pos hp]
      by_cases hw : w ∈ warnings
      · have kept : w ∈ warnings.filter p := List.mem_filter.2 ⟨hw, hp⟩
        simp [addNew, hw, kept]
      · have kept : w ∉ warnings.filter p := fun h => hw (List.mem_filter.1 h).1
        simp [addNew, hw, kept, hp]
    · rw [List.filter_cons_of_neg hp]
      by_cases hw : w ∈ warnings <;> simp [hw, hp]

end Warning

theorem SweepState.filter_warnings_add (state : SweepState) (options : SweepOptions)
    (template : String) (v : Variant) :
    (state.add options template v).warnings.filter (!·.quotesFilename) =
      Warning.addNew (state.warnings.filter (!·.quotesFilename))
        (v.warnings.filter (!·.quotesFilename)) := by
  have clash : ∀ (b : Bool) (name : String),
      (if b then [Warning.duplicateFilename name] else []).filter (!·.quotesFilename) = [] := by
    intro b name
    cases b <;> rfl
  unfold add
  simp only [Warning.filter_addNew, clash]
  rfl

/-- A clash of names apart, the warnings of a run are those of its documents in order. -/
theorem SweepState.filter_warnings_foldl (options : SweepOptions) (template : String)
    (vs : List Variant) (state : SweepState) :
    (vs.foldl (fun s v => s.add options template v) state).warnings.filter (!·.quotesFilename) =
      (vs.map (·.warnings)).foldl
        (fun ws more => Warning.addNew ws (more.filter (!·.quotesFilename)))
        (state.warnings.filter (!·.quotesFilename)) := by
  induction vs generalizing state with
  | nil => rfl
  | cons v vs ih => rw [List.foldl_cons, ih, filter_warnings_add, List.map_cons, List.foldl_cons]

namespace Provenance

theorem segments_generated_at : Text.segments "meta.generated_at" = ["meta", "generated_at"] := by
  decide +kernel

theorem put_at (p : Provenance) (t : Instant) (doc : Document) :
    Dict.put key { p with generatedAt := t }.toJson doc =
      Document.set "meta.generated_at" (.str t.header) (Dict.put key p.toJson doc) := by
  -- The path leads back into the value that was put last.
  rw [Document.set, segments_generated_at, Document.setAt_cons _ (List.cons_ne_nil _ _), toJson,
    toJson]
  change _ = Dict.put key (Json.obj (Document.setAt _ _ (Document.objectAt key _))) _
  rw [Document.objectAt_put_self, Dict.put_put]
  simp [Document.setAt, Dict.put]

end Provenance

namespace FileName

theorem variableText_stamp (context : Context) (stamp : String) (settings : Document)
    (options : NamingOptions) {v : Variable} (h : v ≠ .timestring) :
    variableText { context with stamp := stamp } settings options v =
      variableText context settings options v := by
  cases v with
  | timestring => exact absurd rfl h
  | _ => rfl

/-- The parts of a file name between which the time stands. -/
def segments (template : String) (values : AxisName → Option AxisValue) (settings : Document)
    (options : NamingOptions) : List String :=
  Template.segmentsAt .timestring
    (variableText (combinationContext ⟨0, 0⟩ values) settings options) options.extension
    (Template.pieces template)

theorem ofTemplate_eq_intercalate (template : String) (t : Instant)
    (values : AxisName → Option AxisValue) (settings : Document) (options : NamingOptions) :
    ofTemplate template (combinationContext t values) settings options =
      t.stamp.intercalate (segments template values settings options) := by
  have same : segments template values settings options = Template.segmentsAt .timestring
      (variableText (combinationContext t values) settings options) options.extension
      (Template.pieces template) :=
    Template.segmentsAt_congr _ fun v _ hv =>
      variableText_stamp (combinationContext t values) _ settings options hv
  rw [same]
  exact Template.fill_append_eq_intercalate .timestring template _ options.extension

end FileName

namespace SweepRequest

variable (request : SweepRequest) (options : SweepOptions)

def nameSegments (axes : SweepAxes) : List (List String) :=
  (Combination.all axes).map fun c =>
    FileName.segments (template options axes) (plotParams c axes).get?
      (request.variantOf options ⟨0, 0⟩ axes c).document options.naming

theorem renderedNames_eq (t : Instant) (axes : SweepAxes) :
    request.renderedNames options t axes =
      (request.nameSegments options axes).map t.stamp.intercalate := by
  unfold renderedNames stems variants nameSegments
  rw [List.map_map, List.map_map, List.map_map]
  refine List.map_congr_left fun c _ => ?_
  exact FileName.ofTemplate_eq_intercalate (template options axes) t (plotParams c axes).get?
    (request.variantOf options t axes c).document options.naming

theorem sameButTime (t u : Instant) {axes : SweepAxes} {r s : SweepReport}
    (resolved : request.resolveAxes options.catalog = .ok axes)
    (first : request.generate options t = .ok r) (second : request.generate options u = .ok s) :
    SameButTime options.naming (request.nameSegments options axes) t u r s := by
  have raxes : r.axes = axes := Except.ok.inj ((generate_eq_ok first).1.symm.trans resolved)
  have saxes : s.axes = axes := Except.ok.inj ((generate_eq_ok second).1.symm.trans resolved)
  refine ⟨?_, ?_, ?_, ?_, fun policy => ⟨?_, ?_⟩⟩
  · rw [length_artifacts first, length_artifacts second, raxes, saxes]
  · rw [artifacts_map first fun _ _ => rfl, artifacts_map second fun _ _ => rfl, raxes, saxes,
      variants, variants, List.map_map, List.map_map]
    rfl
  · have dated : ∀ (v : Variant) name, (v.artifact name).document =
        Dict.put Provenance.key v.provenance.toJson v.document := fun _ _ => rfl
    have redated : ∀ (v : Variant) name,
        Document.set "meta.generated_at" (.str t.header) (v.artifact name).document =
          Dict.put Provenance.key { v.provenance with generatedAt := t }.toJson v.document :=
      fun v _ => (v.provenance.put_at t v.document).symm
    rw [artifacts_map first dated, artifacts_map second redated, raxes, saxes, variants, variants,
      List.map_map, List.map_map]
    rfl
  · rw [warnings_eq first, warnings_eq second, raxes, saxes, finalState, finalState,
      SweepState.filter_warnings_foldl, SweepState.filter_warnings_foldl, variants, variants,
      List.map_map, List.map_map]
    rfl
  · rw [filenames_eq first, raxes, nameClaims, NameRegistry.claims_warn policy, renderedNames_eq]
  · rw [filenames_eq second, saxes, nameClaims, NameRegistry.claims_warn policy, renderedNames_eq]

/-- Whatever the two times are: the runs fail alike, or their reports differ in the time alone. -/
theorem generate_at_two_times : ∃ segments : List (List String), ∀ t u : Instant,
    match request.generate options t, request.generate options u with
    | .error e, .error f => e = f
    | .ok r, .ok s => SameButTime options.naming segments t u r s
    | _, _ => False := by
  cases resolved : request.resolveAxes options.catalog with
  | error error =>
    refine ⟨[], fun t u => ?_⟩
    have fails : ∀ now, request.generate options now = .error error := by
      intro now
      unfold generate
      rw [resolved]
    rw [fails t, fails u]
  | ok axes =>
    refine ⟨request.nameSegments options axes, fun t u => ?_⟩
    have first := generate_of_axes resolved t
    have second := generate_of_axes resolved u
    have same := request.sameButTime options t u resolved first second
    rw [first, second]
    exact same

def stampedRequest : SweepRequest where
  base := [("seed", .int 7)]
  x := { name := .x, field := "sampler", choices := ["19700101_000000"] }
  y := { name := .y, field := "steps", expressions := ["20"] }

def stampedOptions : SweepOptions where
  naming := { template := some "\x7btimestring\x7d-\x7bx_value\x7d-\x7btimestring\x7d" }

theorem generate_at_two_times_stamped : ∃ segments r s,
    stampedRequest.generate stampedOptions ⟨0, 0⟩ = .ok r ∧
      stampedRequest.generate stampedOptions ⟨1, 3600⟩ = .ok s ∧
      SameButTime stampedOptions.naming segments ⟨0, 0⟩ ⟨1, 3600⟩ r s := by
  have axes : ∀ axis ∈ stampedRequest.activeAxes,
      axis.hasField = true ∧ axis.contributed stampedOptions.catalog ≠ [] := by
    decide +kernel
  obtain ⟨r, first⟩ := exists_generate_eq_ok axes ⟨0, 0⟩
  obtain ⟨s, second⟩ := exists_generate_eq_ok axes ⟨1, 3600⟩
  obtain ⟨segments, same⟩ := generate_at_two_times stampedRequest stampedOptions
  have both := same ⟨0, 0⟩ ⟨1, 3600⟩
  rw [first, second] at both
  exact ⟨segments, r, s, first, second, both⟩

end SweepRequest

end SettingsSweep

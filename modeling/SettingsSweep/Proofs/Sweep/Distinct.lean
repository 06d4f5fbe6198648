import SettingsSweep.Proofs.Document.Agree
import SettingsSweep.Proofs.Sweep.Document

/-!
When two documents of a sweep come out alike. Their combinations differ on some axis; the documents are
equal, but for the provenance, exactly if every such difference is covered or removed on the way.
-/

set_option autoImplicit false

namespace SettingsSweep

namespace Prompts

theorem toJson_inj {p q : Prompts} (h : p.toJson = q.toJson) : p = q := by
  refine List.map_injective_iff.2 ?_ (Json.obj.inj h)
  rintro ⟨frame, text⟩ ⟨frame', text'⟩ he
  obtain ⟨rfl, ht⟩ := Prod.mk.inj he
  rw [Json.str.inj ht]

end Prompts

namespace Artifact

def settings (artifact : Artifact) : Document :=
  Dict.remove Provenance.key artifact.document

theorem find?_settings {key : String} (h : key ≠ Provenance.key) (artifact : Artifact) :
    artifact.settings.find? key = artifact.document.find? key :=
  Dict.find?_remove_of_ne h _

/-- Neither document says anything under the key: it is that of the provenance, or one that was removed
    from both with the image settings. -/
def Lost (fields : InitImageFields) (a b : Artifact) (key : String) : Prop :=
  key = Provenance.key ∨
    key ∈ fields.dependents ∧ a.document.find? key = none ∧ b.document.find? key = none

end Artifact

/-- On no axis do two artifacts have different values that are both not finite. -/
def PlotParams.FiniteApart (p q : PlotParams) : Prop :=
  ∀ name v w, p.get? name = some v → q.get? name = some w → v.value.key ≠ w.value.key →
    v.value.isFinite = true ∨ w.value.isFinite = true

theorem Dict.AgreeBut.removeAll {hidden : String → Prop} {d e : Document}
    (h : Dict.AgreeBut hidden d e) (keys : List String) :
    Dict.AgreeBut hidden (Document.removeAll d keys) (Document.removeAll e keys) := by
  induction keys generalizing d e with
  | nil => exact h
  | cons key keys ih => exact ih (h.remove key)

namespace SweepRequest

-- Paths are compared by their fields here; unification must not start to split texts.
attribute [local irreducible] Text.segments

/-- Whatever two artifacts differ in is lost: a field lies below a lost key or below the prompts, which
    are written over it; prompts come out the same or lie under a lost key themselves. -/
structure Merged (request : SweepRequest) (catalog : Catalog) (a b : Artifact) : Prop where
  fields : ∀ axis ∈ request.sweptAxes catalog,
    a.provenance.params.DifferAt b.provenance.params axis.name →
      ∃ key, (Text.segments axis.path).head? = some key ∧
        (key = catalog.promptsField ∨ a.Lost catalog.initImage b key)
  prompts : request.frames catalog a.provenance.params =
      request.frames catalog b.provenance.params ∨
    a.Lost catalog.initImage b catalog.promptsField

variable {request : SweepRequest} {options : SweepOptions} {now : Instant} {report : SweepReport}
  {a b : Artifact}

theorem find?_document (slots : request.InSlots) (run : request.generate options now = .ok report)
    (ha : a ∈ report.artifacts) {key : String} (hm : key ≠ Provenance.key) :
    a.document.find? key = (Document.dropStale options.catalog.initImage
      (request.prompted options.catalog a.provenance.params)).find? key := by
  rw [document_eq slots run ha, Dict.find?_put_of_ne hm]

theorem not_dropped_of_not_lost (slots : request.InSlots)
    (run : request.generate options now = .ok report) (ha : a ∈ report.artifacts)
    (he : a.settings = b.settings) {key : String} {keys : List String}
    (hl : ¬ a.Lost options.catalog.initImage b key) :
    ¬ (request.prompted options.catalog a.provenance.params).Dropped options.catalog.initImage
      (key :: keys) := by
  rintro ⟨off, other, hk, head⟩
  obtain rfl := Option.some.inj head
  have hm : key ≠ Provenance.key := fun e => hl (.inl e)
  have absent : a.document.find? key = none := by
    rw [find?_document slots run ha hm, Document.dropStale_of_off off,
      Document.find?_removeAll_of_mem hk]
  refine hl (.inr ⟨hk, absent, ?_⟩)
  rw [← Artifact.find?_settings hm, ← he, Artifact.find?_settings hm, absent]

/-- Below a key that is not lost, documents that come out alike were alike before. -/
theorem getAt?_prompted_eq (slots : request.InSlots)
    (run : request.generate options now = .ok report) (ha : a ∈ report.artifacts)
    (hb : b ∈ report.artifacts) (he : a.settings = b.settings) {key : String}
    (hl : ¬ a.Lost options.catalog.initImage b key) (keys : List String) :
    (request.prompted options.catalog a.provenance.params).getAt? (key :: keys) =
      (request.prompted options.catalog b.provenance.params).getAt? (key :: keys) := by
  have hm : key ≠ Provenance.key := fun e => hl (.inl e)
  have head : (key :: keys).head? ≠ some Provenance.key := fun e => hm (Option.some.inj e)
  have hl' : ¬ b.Lost options.catalog.initImage a key := by
    rintro (e | ⟨hk, absent, absent'⟩)
    · exact hm e
    · exact hl (.inr ⟨hk, absent', absent⟩)
  have same : a.document.getAt? (key :: keys) = b.document.getAt? (key :: keys) := by
    refine Document.getAt?_congr ?_ keys
    rw [← Artifact.find?_settings hm, he, Artifact.find?_settings hm]
  rw [← getAt?_document slots run ha head (not_dropped_of_not_lost slots run ha he hl), same,
    getAt?_document slots run hb head (not_dropped_of_not_lost slots run hb he.symm hl')]

theorem merged_of_settings_eq (slots : request.InSlots)
    (apart : (request.sweptAxes options.catalog).Pairwise fun p q =>
      ¬ Overlap (Text.segments p.path) (Text.segments q.path))
    (run : request.generate options now = .ok report) (ha : a ∈ report.artifacts)
    (hb : b ∈ report.artifacts)
    (finite : a.provenance.params.FiniteApart b.provenance.params)
    (he : a.settings = b.settings) : request.Merged options.catalog a b := by
  constructor
  · rintro axis hx ⟨v, w, hv, hw, hne⟩
    have va := getAt?_written apart hx hv
    have wb := getAt?_written apart hx hw
    cases path : Text.segments axis.path with
    | nil => exact absurd path (Text.segments_ne_nil axis.path)
    | cons key keys =>
      rw [path] at va wb
      refine ⟨key, rfl, ?_⟩
      by_contra hcon
      obtain ⟨hp, hl⟩ := not_or.1 hcon
      have head : (key :: keys).head? ≠ some options.catalog.promptsField :=
        fun e => hp (Option.some.inj e)
      have same := getAt?_prompted_eq slots run ha hb he hl keys
      rw [prompted, prompted, Document.getAt?_put_of_head_ne head,
        Document.getAt?_put_of_head_ne head, va, wb] at same
      have key_eq := Scalar.key_eq_of_toJson_eq (finite _ v w hv hw hne) (Option.some.inj same)
      exact hne key_eq
  · refine or_iff_not_imp_right.2 fun hl => ?_
    have same := getAt?_prompted_eq slots run ha hb he hl []
    change (Dict.put _ _ _).find? _ = (Dict.put _ _ _).find? _ at same
    rw [Dict.find?_put_self, Dict.find?_put_self] at same
    exact Prompts.toJson_inj (Option.some.inj same)

theorem agreeBut_writes {hidden : String → Prop} {p q : PlotParams} (axes : List Axis)
    (h : ∀ axis ∈ axes, ∃ v w, p.get? axis.name = some v ∧ q.get? axis.name = some w ∧
      ∀ key, (Text.segments axis.path).head? = some key → ¬ hidden key →
        v.value.toJson = w.value.toJson)
    {d e : Document} (hd : Dict.AgreeBut hidden d e) :
    Dict.AgreeBut hidden
      (d.writeAll (axes.filterMap fun axis =>
        (p.get? axis.name).map fun v => (Text.segments axis.path, v.value.toJson)))
      (e.writeAll (axes.filterMap fun axis =>
        (q.get? axis.name).map fun v => (Text.segments axis.path, v.value.toJson))) := by
  induction axes generalizing d e with
  | nil => exact hd
  | cons axis axes ih =>
    obtain ⟨v, w, hv, hw, same⟩ := h axis List.mem_cons_self
    simp only [List.filterMap_cons, hv, hw, Option.map_some, Document.writeAll_cons]
    exact ih (fun other ho => h other (List.mem_cons_of_mem _ ho))
      (Document.agreeBut_setAt hd same)

theorem agreeBut_prompted (slots : request.InSlots)
    (run : request.generate options now = .ok report) (ha : a ∈ report.artifacts)
    (hb : b ∈ report.artifacts) (h : request.Merged options.catalog a b) :
    Dict.AgreeBut (a.Lost options.catalog.initImage b)
      (request.prompted options.catalog a.provenance.params)
      (request.prompted options.catalog b.provenance.params) := by
  -- Until the prompts are put, whatever stands under their key may differ as well.
  have fields : Dict.AgreeBut
      (fun key => key = options.catalog.promptsField ∨ a.Lost options.catalog.initImage b key)
      (request.written options.catalog a.provenance.params)
      (request.written options.catalog b.provenance.params) := by
    rw [written, written, writes_assigned, writes_assigned]
    refine agreeBut_writes _ ?_ (.refl _ _)
    intro axis hx
    obtain ⟨v, hv⟩ := exists_recorded slots run ha (List.mem_of_mem_filter hx)
    obtain ⟨w, hw⟩ := exists_recorded slots run hb (List.mem_of_mem_filter hx)
    refine ⟨_, _, hv, hw, fun key head hk => ?_⟩
    by_cases he : v.key = w.key
    · exact Scalar.toJson_eq_of_key_eq he
    · obtain ⟨other, head', hl⟩ := h.fields axis hx ⟨_, _, hv, hw, he⟩
      obtain rfl := Option.some.inj (head.symm.trans head')
      exact absurd hl hk
  refine fields.put ?_ ?_
  · intro hl
    rw [h.prompts.resolve_right hl]
  · intro key ne hk
    exact hk.resolve_left ne

/-- Two documents either both lose their image settings or neither does. -/
theorem imageOff_of_merged (slots : request.InSlots)
    (flag_ne : options.catalog.initImage.flag ≠ Provenance.key)
    (run : request.generate options now = .ok report) (ha : a ∈ report.artifacts)
    (hb : b ∈ report.artifacts) (h : request.Merged options.catalog a b)
    (off : (request.prompted options.catalog a.provenance.params).ImageOff
      options.catalog.initImage) :
    (request.prompted options.catalog b.provenance.params).ImageOff options.catalog.initImage := by
  have agree := agreeBut_prompted slots run ha hb h
  by_cases hl : a.Lost options.catalog.initImage b options.catalog.initImage.flag
  · obtain ⟨-, -, absent⟩ := hl.resolve_left flag_ne
    by_contra on
    rw [find?_document slots run hb flag_ne, Document.dropStale_of_not_off on,
      ← agree.find?_eq_none_iff, off] at absent
    cases absent
  · rw [Document.ImageOff, ← agree.find?_eq hl]
    exact off

theorem Merged.symm {catalog : Catalog} (h : request.Merged catalog a b) :
    request.Merged catalog b a := by
  have lost (key : String) (hl : a.Lost catalog.initImage b key) :
      b.Lost catalog.initImage a key := hl.imp_right fun ⟨hk, ha, hb⟩ => ⟨hk, hb, ha⟩
  constructor
  · rintro axis hx ⟨v, w, hv, hw, ne⟩
    obtain ⟨key, head, hk⟩ := h.fields axis hx ⟨w, v, hw, hv, ne.symm⟩
    exact ⟨key, head, hk.imp_right (lost key)⟩
  · exact h.prompts.imp Eq.symm (lost _)

theorem settings_eq_of_merged (slots : request.InSlots)
    (flag_ne : options.catalog.initImage.flag ≠ Provenance.key)
    (run : request.generate options now = .ok report) (ha : a ∈ report.artifacts)
    (hb : b ∈ report.artifacts) (h : request.Merged options.catalog a b) :
    a.settings = b.settings := by
  have agree := agreeBut_prompted slots run ha hb h
  -- Image settings go from both documents or from neither, so the step keeps them in agreement.
  have dropped : Dict.AgreeBut (a.Lost options.catalog.initImage b)
      (Document.dropStale options.catalog.initImage
        (request.prompted options.catalog a.provenance.params))
      (Document.dropStale options.catalog.initImage
        (request.prompted options.catalog b.provenance.params)) := by
    by_cases off : (request.prompted options.catalog a.provenance.params).ImageOff
        options.catalog.initImage
    · have off' := imageOff_of_merged slots flag_ne run ha hb h off
      rw [Document.dropStale_of_off off, Document.dropStale_of_off off']
      exact agree.removeAll _
    · have on : ¬ (request.prompted options.catalog b.provenance.params).ImageOff
          options.catalog.initImage :=
        fun off' => off (imageOff_of_merged slots flag_ne run hb ha h.symm off')
      rw [Document.dropStale_of_not_off off, Document.dropStale_of_not_off on]
      exact agree
  have settled : Dict.AgreeBut (a.Lost options.catalog.initImage b) a.settings b.settings := by
    rw [Artifact.settings, Artifact.settings, document_eq slots run ha, document_eq slots run hb]
    exact (dropped.put (fun hn => absurd (.inl rfl) hn) fun _ _ hk => hk).remove _
  -- What may still differ has no entry left.
  refine settled.eq_of_absent fun key hl => ?_
  by_cases hm : key = Provenance.key
  · rw [hm]
    exact Dict.find?_remove_self _ _
  · rw [Artifact.find?_settings hm]
    exact (hl.resolve_left hm).2.1

/-- Two artifacts of a run differ on some axis. Their documents, without the provenance, are equal only
    if all that they differ in is lost, and then they are. -/
theorem settings_eq_iff_merged (slots : request.InSlots)
    (run : request.generate options now = .ok report) {i j : Nat}
    (hi : report.artifacts[i]? = some a) (hj : report.artifacts[j]? = some b) (hij : i ≠ j) :
    (∃ axis ∈ request.activeAxes,
      a.provenance.params.DifferAt b.provenance.params axis.name) ∧
    (((request.sweptAxes options.catalog).Pairwise fun p q =>
        ¬ Overlap (Text.segments p.path) (Text.segments q.path)) →
      a.provenance.params.FiniteApart b.provenance.params →
      a.settings = b.settings → request.Merged options.catalog a b) ∧
    (options.catalog.initImage.flag ≠ Provenance.key →
      request.Merged options.catalog a b → a.settings = b.settings) := by
  have ha := List.mem_of_getElem? hi
  have hb := List.mem_of_getElem? hj
  refine ⟨exists_differAt slots run hi hj hij, ?_, ?_⟩
  · intro apart finite
    exact merged_of_settings_eq slots apart run ha hb finite
  · intro flag_ne h
    exact settings_eq_of_merged slots flag_ne run ha hb h

theorem settings_eq_iff_merged_nested :
    ∃ report a b, nestedRequest.generate {} ⟨0, 0⟩ = .ok report ∧ nestedRequest.InSlots ∧
      report.artifacts[0]? = some a ∧ report.artifacts[1]? = some b ∧ a.settings ≠ b.settings := by
  have kept : nestedRequest.x ∈ nestedRequest.sweptAxes ({} : SweepOptions).catalog := by
    decide +kernel
  have segments : Text.segments nestedRequest.x.path = ["model", "vae"] := by decide +kernel
  have combinations : Combination.all (nestedRequest.sweepAxes ({} : SweepOptions).catalog) =
      [⟨.text "b", .text "low", some (.text "rain")⟩,
        ⟨.text "c", .text "low", some (.text "rain")⟩] := by
    have third : nestedRequest.activeZ =
        some { name := .z, field := "prompts", expressions := ["rain"] } := rfl
    rw [sweepAxes, third, Option.map_some, Axis.resolve_eq (by decide),
      Axis.resolve_eq (by decide), Axis.resolve_eq (by decide)]
    decide +kernel
  have slots := inSlots_nested
  obtain ⟨report, run⟩ := exists_generate_nested
  obtain ⟨a, hi, pa⟩ := exists_artifact slots run (congrArg (·[0]?) combinations)
  obtain ⟨b, hj, pb⟩ := exists_artifact slots run (congrArg (·[1]?) combinations)
  refine ⟨report, a, b, run, slots, hi, hj, fun he => ?_⟩
  have finite : a.provenance.params.FiniteApart b.provenance.params := by
    rw [pa, pb]
    rintro (_ | _ | _) v w ⟨⟩ ⟨⟩ - <;> exact .inl rfl
  have merged := (settings_eq_iff_merged slots run hi hj (by decide)).2.1 apart_nested finite he
  have differ : a.provenance.params.DifferAt b.provenance.params nestedRequest.x.name := by
    rw [pa, pb]
    exact ⟨_, _, rfl, rfl, by decide⟩
  obtain ⟨key, head, hk⟩ := merged.fields _ kept differ
  rw [segments] at head
  obtain rfl := Option.some.inj head
  rcases hk with hk | hk | ⟨hk, -⟩
  · exact absurd hk (by decide +kernel)
  · exact absurd hk (by decide +kernel)
  · exact absurd hk (by decide +kernel)

def imagelessRequest : SweepRequest where
  base := [("use_init", .bool false)]
  x := { name := .x, field := "strength", expressions := ["low, high"] }
  y := { name := .y, field := "seed", expressions := ["a"] }

theorem assigned_imageless (c : Combination) :
    imagelessRequest.assigned ({} : SweepOptions).catalog (imagelessRequest.recorded c) =
      [⟨.x, "strength", .numeric, .append, c.x⟩, ⟨.y, "seed", .numeric, .append, c.y⟩] := by
  have px : imagelessRequest.x.path = "strength" := by decide +kernel
  have py : imagelessRequest.y.path = "seed" := by decide +kernel
  have kx : ({} : SweepOptions).catalog.classify "strength" = .numeric := by decide +kernel
  have ky : ({} : SweepOptions).catalog.classify "seed" = .numeric := by decide +kernel
  have hz : imagelessRequest.activeZ = none := rfl
  have nx : imagelessRequest.x.name = .x := rfl
  have ny : imagelessRequest.y.name = .y := rfl
  have mx : imagelessRequest.x.promptMode = .append := rfl
  have my : imagelessRequest.y.promptMode = .append := rfl
  simp [assigned, activeAxes, recorded, PlotParams.get?, hz, nx, ny, px, py, kx, ky, mx, my]

theorem dropStale_imageless {c : Combination} (hy : c.y = .text "a") :
    Document.dropStale ({} : SweepOptions).catalog.initImage
      (imagelessRequest.prompted ({} : SweepOptions).catalog (imagelessRequest.recorded c)) =
      [("use_init", .bool false), ("seed", .str "a"), ("prompts", .obj [("0", .str "")])] := by
  have sx : Text.segments "strength" = ["strength"] := by decide +kernel
  have sy : Text.segments "seed" = ["seed"] := by decide +kernel
  have writes : Assignment.writes
      (imagelessRequest.assigned ({} : SweepOptions).catalog (imagelessRequest.recorded c)) =
        [(["strength"], c.x.toJson), (["seed"], .str "a")] := by
    rw [assigned_imageless, hy]
    simp [Assignment.writes, sx, sy, Scalar.toJson]
  have frames : imagelessRequest.frames ({} : SweepOptions).catalog (imagelessRequest.recorded c) =
      [("0", "")] := by
    rw [SweepRequest.frames, assigned_imageless]
    rfl
  rw [prompted, written, writes, frames]
  rfl

/-- Without an image its strength is removed again, and the documents come out alike. -/
theorem settings_eq_imageless :
    ∃ report a b, imagelessRequest.generate {} ⟨0, 0⟩ = .ok report ∧ imagelessRequest.InSlots ∧
      (imagelessRequest.activeAxes.Pairwise fun p q =>
        ¬ Overlap (Text.segments p.path) (Text.segments q.path)) ∧
      report.artifacts[0]? = some a ∧ report.artifacts[1]? = some b ∧ a.settings = b.settings := by
  have axes : ∀ axis ∈ imagelessRequest.activeAxes,
      axis.hasField = true ∧ axis.contributed ({} : SweepOptions).catalog ≠ [] := by
    decide +kernel
  have slots : imagelessRequest.InSlots := ⟨rfl, rfl, by rintro z ⟨⟩⟩
  have paths : imagelessRequest.activeAxes.map (fun axis => Text.segments axis.path) =
      [["strength"], ["seed"]] := by
    decide +kernel
  have apart : (imagelessRequest.activeAxes.map fun axis => Text.segments axis.path).Pairwise
      fun p q => ¬ Overlap p q := by
    rw [paths]
    simp [Overlap]
  have combinations : Combination.all (imagelessRequest.sweepAxes ({} : SweepOptions).catalog) =
      [⟨.text "low", .text "a", none⟩, ⟨.text "high", .text "a", none⟩] := by
    rw [sweepAxes, Axis.resolve_eq (by decide), Axis.resolve_eq (by decide)]
    decide +kernel
  obtain ⟨report, run⟩ := exists_generate_eq_ok axes ⟨0, 0⟩
  obtain ⟨a, hi, pa⟩ := exists_artifact slots run (congrArg (·[0]?) combinations)
  obtain ⟨b, hj, pb⟩ := exists_artifact slots run (congrArg (·[1]?) combinations)
  refine ⟨report, a, b, run, slots, List.pairwise_map.1 apart, hi, hj, ?_⟩
  rw [Artifact.settings, Artifact.settings, document_eq slots run (List.mem_of_getElem? hi),
    document_eq slots run (List.mem_of_getElem? hj), pa, pb, dropStale_imageless rfl,
    dropStale_imageless rfl]
  rfl

end SweepRequest

end SettingsSweep

import SettingsSweep.Proofs.Axis.Values
import SettingsSweep.Proofs.Naming.Registry
import SettingsSweep.Sweep.Report
import Mathlib.Data.List.Basic

/-!
A run of a sweep without its state: it succeeds for axes with fields and values, and its artifacts are the
documents of the combinations, each with the name that the registry gives it.
-/

set_option autoImplicit false

namespace SettingsSweep

namespace Variant

def stem (v : Variant) (options : SweepOptions) (template : String) : String :=
  Template.fill template (FileName.variableText
    (FileName.combinationContext v.provenance.generatedAt v.provenance.params.get?)
    v.document options.naming)

theorem fileName_eq (v : Variant) (options : SweepOptions) (template : String) :
    v.provenance.fileName template v.document options.naming =
      v.stem options template ++ options.naming.extension := rfl

def artifact (v : Variant) (filename : String) : Artifact :=
  ⟨v.overrides, Dict.put Provenance.key v.provenance.toJson v.document, filename, v.provenance⟩

end Variant

namespace SweepRequest

def sweepAxes (request : SweepRequest) (catalog : Catalog) : SweepAxes :=
  ⟨request.x.resolve catalog, request.y.resolve catalog,
    request.activeZ.map fun z => z.resolve catalog⟩

theorem toList_sweepAxes (request : SweepRequest) (catalog : Catalog) :
    (request.sweepAxes catalog).toList = request.activeAxes.map fun axis => axis.resolve catalog := by
  cases hz : request.activeZ <;> simp [SweepAxes.toList, sweepAxes, activeAxes, hz]

theorem missingField?_eq_none_iff (request : SweepRequest) :
    request.missingField? = none ↔ ∀ axis ∈ request.activeAxes, axis.hasField = true := by
  simp [missingField?]

theorem emptyAxis?_eq_none_iff (axes : SweepAxes) :
    emptyAxis? axes = none ↔ ∀ axis ∈ axes.toList, axis.values ≠ [] := by
  simp [emptyAxis?]

/-- A run goes ahead exactly if every axis in use has a field and values. -/
theorem resolveAxes_eq_ok_iff {request : SweepRequest} {catalog : Catalog} {axes : SweepAxes} :
    request.resolveAxes catalog = .ok axes ↔
      axes = request.sweepAxes catalog ∧
        ∀ axis ∈ request.activeAxes, axis.hasField = true ∧ (axis.resolve catalog).values ≠ [] := by
  have hf := request.missingField?_eq_none_iff
  have he := emptyAxis?_eq_none_iff (request.sweepAxes catalog)
  rw [toList_sweepAxes, List.forall_mem_map] at he
  constructor
  · intro h
    unfold resolveAxes at h
    split at h
    · cases h
    · next hm =>
      dsimp only at h
      split at h
      · cases h
      · next hv =>
        obtain rfl := Except.ok.inj h
        exact ⟨rfl, fun axis ha => ⟨hf.1 hm axis ha, he.1 hv axis ha⟩⟩
  · rintro ⟨rfl, h⟩
    have hm := hf.2 fun axis ha => (h axis ha).1
    have hv := he.2 fun axis ha => (h axis ha).2
    rw [sweepAxes] at hv ⊢
    rw [resolveAxes, hm]
    simp only [hv]

def initialPrompts (request : SweepRequest) (catalog : Catalog) : Prompts :=
  request.prompts.getD ((request.effectiveBase catalog).1.prompts catalog)

def variantOf (request : SweepRequest) (options : SweepOptions) (now : Instant) (axes : SweepAxes)
    (c : Combination) : Variant :=
  request.variant options now axes (request.effectiveBase options.catalog).1
    (request.initialPrompts options.catalog) c

def variants (request : SweepRequest) (options : SweepOptions) (now : Instant) (axes : SweepAxes) :
    List Variant :=
  (Combination.all axes).map (request.variantOf options now axes)

/-- What the documents of a run ask to be called, in order and short of the extension. -/
def stems (request : SweepRequest) (options : SweepOptions) (now : Instant) (axes : SweepAxes) :
    List String :=
  (request.variants options now axes).map (·.stem options (template options axes))

def renderedNames (request : SweepRequest) (options : SweepOptions) (now : Instant)
    (axes : SweepAxes) : List String :=
  (request.stems options now axes).map (· ++ options.naming.extension)

def nameClaims (request : SweepRequest) (options : SweepOptions) (now : Instant)
    (axes : SweepAxes) : List Claim :=
  NameRegistry.claims options.naming {} (request.renderedNames options now axes)

end SweepRequest

/-- Naming documents one by one hands their names to the registry in order. -/
theorem SweepState.artifacts_foldl_add (options : SweepOptions) (template : String)
    (vs : List Variant) (state : SweepState) :
    (vs.foldl (fun s v => s.add options template v) state).artifacts =
      ((vs.zip (NameRegistry.claims options.naming state.registry
          (vs.map fun v => v.stem options template ++ options.naming.extension))).map
        fun (v, claim) => v.artifact claim.name).reverse ++ state.artifacts := by
  induction vs generalizing state with
  | nil => simp
  | cons v vs ih =>
    rw [List.foldl_cons, ih]
    simp [SweepState.add, NameRegistry.claims, Variant.artifact, Variant.fileName_eq]

namespace SweepRequest

variable {request : SweepRequest} {options : SweepOptions} {now : Instant} {report : SweepReport}

def firstWarnings (request : SweepRequest) (catalog : Catalog) (axes : SweepAxes) : List Warning :=
  Warning.addNew (Warning.addNew [] (axes.toList.flatMap (·.warnings)))
    (request.effectiveBase catalog).2

def finalState (request : SweepRequest) (options : SweepOptions) (now : Instant)
    (axes : SweepAxes) : SweepState :=
  (request.variants options now axes).foldl
    (fun state v => state.add options (template options axes) v)
    { warnings := request.firstWarnings options.catalog axes }

theorem generate_of_axes {axes : SweepAxes}
    (resolved : request.resolveAxes options.catalog = .ok axes) (now : Instant) :
    request.generate options now =
      .ok ⟨(request.finalState options now axes).artifacts.reverse, axes,
        (request.finalState options now axes).warnings,
        (request.finalState options now axes).duplicates.reverse⟩ := by
  unfold generate
  rw [resolved, finalState, variants, List.foldl_map]
  rfl

theorem generate_eq_ok (run : request.generate options now = .ok report) :
    request.resolveAxes options.catalog = .ok report.axes ∧
      report.artifacts =
        ((request.variants options now report.axes).zip
          (request.nameClaims options now report.axes)).map
            fun (v, claim) => v.artifact claim.name := by
  cases hr : request.resolveAxes options.catalog with
  | error error =>
    unfold generate at run
    rw [hr] at run
    cases run
  | ok axes =>
    rw [generate_of_axes hr] at run
    obtain rfl := Except.ok.inj run
    refine ⟨rfl, ?_⟩
    rw [finalState, SweepState.artifacts_foldl_add, List.append_nil, List.reverse_reverse,
      nameClaims, renderedNames, stems, List.map_map]
    rfl

theorem warnings_eq (run : request.generate options now = .ok report) :
    report.warnings = (request.finalState options now report.axes).warnings := by
  rw [generate_of_axes (generate_eq_ok run).1] at run
  exact congrArg SweepReport.warnings (Except.ok.inj run).symm

theorem exists_generate_eq_ok
    (h : ∀ axis ∈ request.activeAxes, axis.hasField = true ∧ axis.contributed options.catalog ≠ [])
    (now : Instant) : ∃ report, request.generate options now = .ok report := by
  have hr : request.resolveAxes options.catalog = .ok (request.sweepAxes options.catalog) := by
    refine resolveAxes_eq_ok_iff.2 ⟨rfl, fun axis ha => ?_⟩
    obtain ⟨hf, hc⟩ := h axis ha
    rw [Axis.resolve_values hf, ne_eq, Scalar.distinct_eq_nil_iff]
    exact ⟨hf, hc⟩
  exact ⟨_, generate_of_axes hr now⟩

theorem axes_eq (run : request.generate options now = .ok report) :
    report.axes = request.sweepAxes options.catalog :=
  (resolveAxes_eq_ok_iff.1 (generate_eq_ok run).1).1

theorem length_nameClaims (request : SweepRequest) (options : SweepOptions) (now : Instant)
    (axes : SweepAxes) : (request.nameClaims options now axes).length =
      (request.variants options now axes).length := by
  simp [nameClaims, renderedNames, stems]

theorem filenames_eq (run : request.generate options now = .ok report) :
    report.artifacts.map (·.filename) =
      (request.nameClaims options now report.axes).map (·.name) := by
  have hl := request.length_nameClaims options now report.axes
  calc
    report.artifacts.map (·.filename)
        = (((request.variants options now report.axes).zip
            (request.nameClaims options now report.axes)).map Prod.snd).map (·.name) := by
      rw [(generate_eq_ok run).2, List.map_map, List.map_map]
      rfl
    _ = (request.nameClaims options now report.axes).map (·.name) := by
      rw [List.map_snd_zip (Nat.le_of_eq hl)]

/-- What does not hang on the file names can be read off the documents of the run. -/
theorem artifacts_map (run : request.generate options now = .ok report) {β : Type}
    {f : Artifact → β} {g : Variant → β} (h : ∀ v name, f (v.artifact name) = g v) :
    report.artifacts.map f = (request.variants options now report.axes).map g := by
  have hl := request.length_nameClaims options now report.axes
  have each : (f ∘ fun p : Variant × Claim => p.1.artifact p.2.name) = g ∘ Prod.fst :=
    funext fun p => h p.1 p.2.name
  calc
    report.artifacts.map f
        = ((request.variants options now report.axes).zip
            (request.nameClaims options now report.axes)).map (g ∘ Prod.fst) := by
      rw [(generate_eq_ok run).2, List.map_map]
      exact congrArg (List.map · _) each
    _ = (request.variants options now report.axes).map g := by
      rw [← List.map_map, List.map_fst_zip (Nat.le_of_eq hl.symm)]

theorem length_artifacts (run : request.generate options now = .ok report) :
    report.artifacts.length = (Combination.all report.axes).length := by
  rw [(generate_eq_ok run).2, List.length_map, List.length_zip, length_nameClaims, Nat.min_self,
    variants, List.length_map]

/-- Each artifact is the document of the combination at its position, under some name. -/
theorem artifact_getElem? (run : request.generate options now = .ok report) {i : Nat}
    {artifact : Artifact} (h : report.artifacts[i]? = some artifact) :
    ∃ c name, (Combination.all report.axes)[i]? = some c ∧
      artifact = (request.variantOf options now report.axes c).artifact name := by
  rw [(generate_eq_ok run).2, List.getElem?_map, Option.map_eq_some_iff] at h
  obtain ⟨⟨v, claim⟩, hz, rfl⟩ := h
  obtain ⟨hv, -⟩ := List.getElem?_zip_eq_some.1 hz
  rw [variants, List.getElem?_map, Option.map_eq_some_iff] at hv
  obtain ⟨c, hc, rfl⟩ := hv
  exact ⟨c, claim.name, hc, rfl⟩

end SweepRequest

end SettingsSweep

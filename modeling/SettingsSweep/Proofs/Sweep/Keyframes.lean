import SettingsSweep.Proofs.Sweep.Preview
import SettingsSweep.Proofs.Sweep.Prompts

/-!
Whether a document has a prompt frame. A document without prompts gets one, and no addition takes a frame away; a value
that takes the place of all frames may spell none.
-/

set_option autoImplicit false

namespace SettingsSweep

/-- Where some steps decide on what is read of a state and the others leave it alone, the last step that decides tells
    what is read in the end. -/
theorem read_foldl {α σ β : Type} {step : σ → α → σ} {read : σ → β} {decides : α → Bool}
    (keeps : ∀ s a, decides a = false → read (step s a) = read s) (s : σ) (steps : List α) :
    ((steps.filter decides).getLast? = none → read (steps.foldl step s) = read s) ∧
      ∀ a, (steps.filter decides).getLast? = some a →
        ∃ before, read (steps.foldl step s) = read (step before a) := by
  induction steps generalizing s with
  | nil => exact ⟨fun _ => rfl, nofun⟩
  | cons first steps ih =>
    obtain ⟨kept, decided⟩ := ih (step s first)
    cases rest : (steps.filter decides).getLast? with
    | some last =>
      have same : ((first :: steps).filter decides).getLast? = some last := by
        rw [List.filter_cons]
        split
        · rw [List.getLast?_cons, rest]
          rfl
        · exact rest
      rw [same]
      refine ⟨nofun, ?_⟩
      rintro a ⟨⟩
      exact decided last rest
    | none =>
      have empty : steps.filter decides = [] := List.getLast?_eq_none_iff.1 rest
      rw [List.foldl_cons, kept rest, List.filter_cons, empty]
      cases first_decides : decides first with
      | true =>
        refine ⟨nofun, ?_⟩
        rintro a ⟨⟩
        exact ⟨s, rfl⟩
      | false => exact ⟨fun _ => keeps s first first_decides, nofun⟩

namespace Prompts

def SpellsNone (text : String) : Prop := Json.ofText text.toList = .ok (.obj [])

theorem ofOverride_isEmpty_iff (text : String) :
    (ofOverride text).isEmpty = true ↔ SpellsNone text := by
  rw [SpellsNone, List.isEmpty_iff]
  by_cases h : ∃ members, Json.ofText text.toList = .ok (.obj members)
  · obtain ⟨members, h⟩ := h
    simp [ofOverride, h]
  · have one : ofOverride text = [("0", text)] :=
      ofOverride_of_not_object fun members read => h ⟨members, read⟩
    rw [one]
    exact ⟨fun empty => absurd empty (List.cons_ne_nil _ _), fun read => absurd ⟨[], read⟩ h⟩

theorem isEmpty_append (prompts : Prompts) (text : String) :
    (prompts.append text).isEmpty = prompts.isEmpty := by
  cases prompts <;> rfl

theorem toJson_texts (prompts : Prompts) : ∃ members : Document, prompts.toJson = .obj members ∧
    (∀ member ∈ members, ∃ text, member.2 = .str text) ∧ (members = [] ↔ prompts.isEmpty = true) := by
  refine ⟨_, rfl, ?_, ?_⟩
  · intro member hm
    obtain ⟨frame, -, rfl⟩ := List.mem_map.1 hm
    exact ⟨frame.2, rfl⟩
  · rw [List.map_eq_nil_iff, List.isEmpty_iff]

end Prompts

theorem Document.prompts_isEmpty (catalog : Catalog) (doc : Document) :
    (doc.prompts catalog).isEmpty = false := by
  unfold prompts
  split <;> rfl

namespace Assignment

/-- The assignment that takes the place of all frames for the last time. -/
def lastOverride? (assignments : List Assignment) : Option Assignment :=
  ((assignments.filter fun a => a.kind = .prompts).filter fun a => a.mode = .override).getLast?

theorem merged_isEmpty_of_append {a : Assignment} (h : a.mode = .append) (prompts : Prompts) :
    (merged prompts a).isEmpty = prompts.isEmpty := by
  rw [merged, h]
  exact Prompts.isEmpty_append prompts _

theorem merged_of_override {a : Assignment} (h : a.mode = .override) (prompts : Prompts) :
    merged prompts a = Prompts.ofOverride a.value.display := by
  rw [merged, h]
  exact Prompts.replacement_fst a.axis a.value

theorem mergeAll_isEmpty_iff {prompts : Prompts} (given : prompts.isEmpty = false)
    (assignments : List Assignment) : (mergeAll prompts assignments).isEmpty = true ↔
      ∃ a, lastOverride? assignments = some a ∧ Prompts.SpellsNone a.value.display := by
  have keeps (before : Prompts) (a : Assignment) (h : decide (a.mode = .override) = false) :
      (merged before a).isEmpty = before.isEmpty := by
    refine merged_isEmpty_of_append ?_ before
    cases mode : a.mode with
    | append => rfl
    | override => simp [mode] at h
  obtain ⟨kept, decided⟩ := read_foldl keeps prompts (assignments.filter fun a => a.kind = .prompts)
  change (List.foldl merged prompts _).isEmpty = true ↔ _
  cases last : lastOverride? assignments with
  | none =>
    rw [kept last, given]
    exact ⟨nofun, fun ⟨a, h, _⟩ => nomatch h⟩
  | some a =>
    obtain ⟨before, eq⟩ := decided a last
    have override : a.mode = .override := by
      have mem := List.mem_of_getLast? last
      exact of_decide_eq_true (List.mem_filter.1 mem).2
    rw [eq, merged_of_override override, Prompts.ofOverride_isEmpty_iff]
    simp

end Assignment

namespace SweepRequest

variable {request : SweepRequest} {options : SweepOptions} {now : Instant} {report : SweepReport}

theorem initialPrompts_isEmpty (given : ∀ prompts ∈ request.prompts, prompts ≠ [])
    (catalog : Catalog) : (request.initialPrompts catalog).isEmpty = false := by
  unfold initialPrompts
  cases h : request.prompts with
  | none => exact Document.prompts_isEmpty catalog _
  | some prompts => exact List.isEmpty_eq_false_iff.2 (given prompts h)

theorem find?_prompts_of_assignments (key : options.catalog.promptsField ≠ Provenance.key)
    (kept : options.catalog.promptsField ∉ options.catalog.initImage.dependents)
    (run : request.generate options now = .ok report) {i : Nat} {artifact : Artifact}
    (h : report.artifacts[i]? = some artifact) {c : Combination}
    (hc : (Combination.all report.axes)[i]? = some c) :
    artifact.document.find? options.catalog.promptsField =
      some (Assignment.mergeAll (request.initialPrompts options.catalog)
        (c.assignments request report.axes)).toJson := by
  rw [document_of_assignments run h hc, Dict.find?_put_of_ne key,
    Document.find?_dropStale_of_notMem kept, Dict.find?_put_self]

/-- The prompts of a document are texts. There is one at least unless the last value that takes the place of all frames
    spells an object without members. -/
theorem keyframes_missing_iff (key : options.catalog.promptsField ≠ Provenance.key)
    (kept : options.catalog.promptsField ∉ options.catalog.initImage.dependents)
    (given : ∀ prompts ∈ request.prompts, prompts ≠ [])
    (run : request.generate options now = .ok report) :
    ∀ (i : Nat) (artifact : Artifact), report.artifacts[i]? = some artifact →
      ∃ c, (Combination.all report.axes)[i]? = some c ∧
        ∃ members : Document,
          artifact.document.find? options.catalog.promptsField = some (.obj members) ∧
          (∀ member ∈ members, ∃ text, member.2 = .str text) ∧
          (members = [] ↔
            ∃ a, Assignment.lastOverride? (c.assignments request report.axes) = some a ∧
              Prompts.SpellsNone a.value.display) := by
  intro i artifact h
  obtain ⟨c, -, hc, -⟩ := artifact_getElem? run h
  obtain ⟨members, json, texts, empty⟩ := Prompts.toJson_texts (Assignment.mergeAll
    (request.initialPrompts options.catalog) (c.assignments request report.axes))
  refine ⟨c, hc, members, ?_, texts, ?_⟩
  · rw [find?_prompts_of_assignments key kept run h hc, json]
  · rw [empty, Assignment.mergeAll_isEmpty_iff (initialPrompts_isEmpty given _)]

def refilledRequest : SweepRequest where
  base := []
  prompts := some [("0", "sea")]
  x := { name := .x, field := "prompts", expressions := ["\x7b\x7d"], promptMode := .override }
  y := { name := .y, field := "prompts", expressions := ["rain"], promptMode := .override }

theorem keyframes_missing_iff_refilled :
    ∃ report, refilledRequest.generate {} ⟨0, 0⟩ = .ok report ∧
      refilledRequest.prompts = some [("0", "sea")] ∧
      (∀ prompts ∈ refilledRequest.prompts, prompts ≠ []) ∧
      ∀ artifact ∈ report.artifacts, ∃ member members,
        artifact.document.find? "prompts" = some (.obj (member :: members)) := by
  have axes : ∀ axis ∈ refilledRequest.activeAxes,
      axis.hasField = true ∧ axis.contributed ({} : SweepOptions).catalog ≠ [] := by
    decide +kernel
  have given : ∀ prompts ∈ refilledRequest.prompts, prompts ≠ [] := by
    rintro _ ⟨⟩
    exact List.cons_ne_nil _ _
  have combinations : Combination.all (refilledRequest.sweepAxes ({} : SweepOptions).catalog) =
      [⟨.text "\x7b\x7d", .text "rain", none⟩] := by
    rw [sweepAxes, Axis.resolve_eq (by decide), Axis.resolve_eq (by decide)]
    decide +kernel
  obtain ⟨report, run⟩ := exists_generate_eq_ok axes ⟨0, 0⟩
  refine ⟨report, run, rfl, given, fun artifact h => ?_⟩
  obtain ⟨i, hi⟩ := List.mem_iff_getElem?.1 h
  obtain ⟨c, hc, members, found, -, empty⟩ :=
    keyframes_missing_iff (by decide) (by decide) given run i artifact hi
  rw [axes_eq run, combinations] at hc
  obtain rfl := List.mem_singleton.1 (List.mem_of_getElem? hc)
  rw [axes_eq run] at empty
  cases members with
  | cons member members => exact ⟨member, members, found⟩
  | nil =>
    obtain ⟨a, last, none⟩ := empty.1 rfl
    obtain rfl := Option.some.inj last
    cases none

def emptiedRequest : SweepRequest where
  base := [("prompts", .obj [("0", .str "sea")])]
  x := { name := .x, field := "prompts", expressions := ["\x7b\x7d"], promptMode := .override }
  y := { name := .y, field := "seed", expressions := ["1"] }

/-- A value that spells an object without members leaves a document without a prompt. -/
theorem keyframes_missing_emptied :
    ∃ report first rest, emptiedRequest.generate {} ⟨0, 0⟩ = .ok report ∧
      (∀ prompts ∈ emptiedRequest.prompts, prompts ≠ []) ∧
      report.artifacts = first :: rest ∧ first.document.find? "prompts" = some (.obj []) := by
  have axes : ∀ axis ∈ emptiedRequest.activeAxes,
      axis.hasField = true ∧ axis.contributed ({} : SweepOptions).catalog ≠ [] := by
    decide +kernel
  have combinations : Combination.all (emptiedRequest.sweepAxes ({} : SweepOptions).catalog) =
      [⟨.text "\x7b\x7d", .number (.ofInt 1), none⟩] := by
    rw [sweepAxes, Axis.resolve_eq (by decide), Axis.resolve_eq (by decide)]
    decide +kernel
  obtain ⟨report, run⟩ := exists_generate_eq_ok axes ⟨0, 0⟩
  obtain ⟨first, rest, h, hc⟩ := exists_first_of_combinations run combinations
  refine ⟨report, first, rest, run, by rintro _ ⟨⟩, h, ?_⟩
  have found := find?_prompts_of_assignments (by decide) (by decide) run (by rw [h]; rfl) hc
  rw [axes_eq run] at found
  exact found

end SweepRequest

end SettingsSweep

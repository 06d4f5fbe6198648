import SettingsSweep.Proofs.Document.Merge
import SettingsSweep.Proofs.Sweep.EffectiveBase
import SettingsSweep.Proofs.Sweep.Preview
import SettingsSweep.Sweep.CommonSettings

/-!
The flag of the initial image through the layers of a document. The last layer that writes the flag decides on it, and a
flag that is off takes the other image settings with it, whatever layer they come from.
-/

set_option autoImplicit false

namespace SettingsSweep

namespace Document

theorem find?_writeAll_of_head_ne {key : String} {writes : List (List String × Json)}
    (h : ∀ w ∈ writes, w.1.head? ≠ some key) (doc : Document) :
    (doc.writeAll writes).find? key = doc.find? key := by
  induction writes generalizing doc with
  | nil => rfl
  | cons w writes ih =>
    rw [writeAll_cons, ih fun u hu => h u (List.mem_cons_of_mem _ hu)]
    exact find?_setAt_of_head_ne (h w List.mem_cons_self) w.2 doc

theorem find?_writeAll_of_last {key : String} {before after : List (List String × Json)} {value : Json}
    (last : ∀ w ∈ after, w.1.head? ≠ some key) (doc : Document) :
    (doc.writeAll (before ++ ([key], value) :: after)).find? key = some value := by
  have split : doc.writeAll (before ++ ([key], value) :: after) =
      ((doc.writeAll before).setAt [key] value).writeAll after := List.foldl_append
  rw [split, find?_writeAll_of_head_ne last]
  exact Dict.find?_put_self key value _

end Document

namespace SweepRequest

variable {request : SweepRequest} {options : SweepOptions} {now : Instant} {report : SweepReport}

/-- The last layer that writes at or below a key writes `false` to it. Above the base come the common settings, then the
    initial image, then the values of the axes. -/
inductive TurnedOff (request : SweepRequest) (flag : String) (writes : List (List String × Json)) : Prop
  | axis {before after : List (List String × Json)}
      (parts : writes = before ++ ([flag], .bool false) :: after)
      (last : ∀ w ∈ after, w.1.head? ≠ some flag)
  | image (above : ∀ w ∈ writes, w.1.head? ≠ some flag) (off : request.initImage = some .disabled)
  | common (above : ∀ w ∈ writes, w.1.head? ≠ some flag) (unsaid : request.initImage = none)
      {before after : Document} (parts : request.common = before ++ (flag, .bool false) :: after)
      (last : ∀ m ∈ after, (Text.segments m.1).head? ≠ some flag)
  | base (above : ∀ w ∈ writes, w.1.head? ≠ some flag) (unsaid : request.initImage = none)
      (unset : ∀ m ∈ request.common, (Text.segments m.1).head? ≠ some flag)
      (off : request.base.find? flag = some (.bool false))

theorem find?_effectiveBase_of_disabled {catalog : Catalog}
    (kept : catalog.initImage.flag ∉ catalog.initImage.dependents)
    (off : request.initImage = some .disabled) :
    (request.effectiveBase catalog).1.find? catalog.initImage.flag = some (.bool false) := by
  rw [effectiveBase, off]
  exact (InitImage.find?_apply_disabled kept _).1

theorem effectiveBase_of_none {catalog : Catalog} (unsaid : request.initImage = none) :
    (request.effectiveBase catalog).1 = (request.base.merge request.common).1 := by
  rw [effectiveBase, unsaid]

theorem find?_writeAll_of_turnedOff {catalog : Catalog} {writes : List (List String × Json)}
    (kept : catalog.initImage.flag ∉ catalog.initImage.dependents)
    (plain : '.' ∉ catalog.initImage.flag.toList)
    (off : request.TurnedOff catalog.initImage.flag writes) :
    ((request.effectiveBase catalog).1.writeAll writes).find? catalog.initImage.flag =
      some (.bool false) := by
  cases off with
  | axis parts last =>
    rw [parts]
    exact Document.find?_writeAll_of_last last _
  | image above off =>
    rw [Document.find?_writeAll_of_head_ne above, find?_effectiveBase_of_disabled kept off]
  | common above unsaid parts last =>
    rw [Document.find?_writeAll_of_head_ne above, effectiveBase_of_none unsaid, parts]
    exact Document.find?_merge_of_last plain rfl last _
  | base above unsaid unset off =>
    rw [Document.find?_writeAll_of_head_ne above, effectiveBase_of_none unsaid,
      Document.find?_merge_of_head_ne plain unset, off]

/-- An image that is switched off in the last layer that says so leaves no settings behind. -/
theorem image_off_leaves_nothing
    (names : (Provenance.key :: options.catalog.initImage.flag ::
      options.catalog.initImage.dependents).Nodup)
    (prompts : options.catalog.initImage.flag ≠ options.catalog.promptsField)
    (plain : '.' ∉ options.catalog.initImage.flag.toList)
    (run : request.generate options now = .ok report) {i : Nat} {artifact : Artifact}
    (h : report.artifacts[i]? = some artifact) {c : Combination}
    (hc : (Combination.all report.axes)[i]? = some c)
    (off : request.TurnedOff options.catalog.initImage.flag
      (Assignment.writes (c.assignments request report.axes))) :
    artifact.document.ImageOff options.catalog.initImage ∧
      ∀ key ∈ options.catalog.initImage.dependents, artifact.document.find? key = none := by
  obtain ⟨key_notMem, names⟩ := List.nodup_cons.1 names
  have kept := (List.nodup_cons.1 names).1
  have flag_ne : options.catalog.initImage.flag ≠ Provenance.key :=
    fun e => key_notMem (e ▸ List.mem_cons_self)
  rw [document_of_assignments run h hc]
  -- No later step writes the flag, so the clean-up sees it as the layers left it.
  have seen : Document.ImageOff options.catalog.initImage
      (Dict.put options.catalog.promptsField
        (Assignment.mergeAll (request.initialPrompts options.catalog)
          (c.assignments request report.axes)).toJson
        ((request.effectiveBase options.catalog).1.writeAll
          (Assignment.writes (c.assignments request report.axes)))) := by
    rw [Document.ImageOff, Dict.find?_put_of_ne prompts]
    exact find?_writeAll_of_turnedOff kept plain off
  constructor
  · rw [Document.ImageOff, Dict.find?_put_of_ne flag_ne, Document.find?_dropStale_of_notMem kept]
    exact seen
  · intro key hk
    have ne : key ≠ Provenance.key := fun e => key_notMem (e ▸ List.mem_cons_of_mem _ hk)
    rw [Dict.find?_put_of_ne ne, Document.dropStale_of_off seen]
    exact Document.find?_removeAll_of_mem hk _

def switchedRequest : SweepRequest where
  base := [("strength", .int 1)]
  x := { name := .x, field := "use_init", expressions := ["False"] }
  y := { name := .y, field := "seed", expressions := ["1"] }
  initImage := some (.enabled "a.png" "0.5")

theorem image_off_leaves_nothing_switched :
    ∃ report first rest, switchedRequest.generate {} ⟨0, 0⟩ = .ok report ∧
      report.artifacts = first :: rest ∧
      first.document.find? "use_init" = some (.bool false) ∧
      first.document.find? "init_image" = none ∧ first.document.find? "strength" = none := by
  have axes : ∀ axis ∈ switchedRequest.activeAxes,
      axis.hasField = true ∧ axis.contributed ({} : SweepOptions).catalog ≠ [] := by
    decide +kernel
  have combinations : Combination.all (switchedRequest.sweepAxes ({} : SweepOptions).catalog) =
      [⟨.bool false, .number (.ofInt 1), none⟩] := by
    rw [sweepAxes, Axis.resolve_eq (by decide), Axis.resolve_eq (by decide)]
    decide +kernel
  obtain ⟨report, run⟩ := exists_generate_eq_ok axes ⟨0, 0⟩
  obtain ⟨first, rest, h, hc⟩ := exists_first_of_combinations run combinations
  have writes : Assignment.writes (Combination.assignments ⟨.bool false, .number (.ofInt 1), none⟩
      switchedRequest report.axes) = [] ++ (["use_init"], .bool false) :: [(["seed"], .int 1)] := by
    rw [axes_eq run]
    rfl
  have off : switchedRequest.TurnedOff "use_init" (Assignment.writes (Combination.assignments
      ⟨.bool false, .number (.ofInt 1), none⟩ switchedRequest report.axes)) :=
    .axis writes (by decide)
  obtain ⟨flag, gone⟩ := image_off_leaves_nothing (by decide +kernel) (by decide) (by decide) run
    (by rw [h]; rfl) hc off
  exact ⟨report, first, rest, run, h, flag, gone "init_image" (by decide),
    gone "strength" (by decide)⟩

def typedOffRequest : SweepRequest where
  base := [("init_image", .str "a.png"), ("strength", .int 1)]
  x := { name := .x, field := "seed", expressions := ["1"] }
  y := { name := .y, field := "steps", expressions := ["2"] }
  common := CommonSettings.set [] {} "use_init" "false"

/-- A form field that is set to `false` holds a text, which switches no image off. -/
theorem typed_off_keeps_image :
    ∃ report first rest, typedOffRequest.generate {} ⟨0, 0⟩ = .ok report ∧
      Scalar.classify "false" = .bool false ∧ report.artifacts = first :: rest ∧
      first.document.find? "use_init" = some (.str "false") ∧
      first.document.find? "init_image" = some (.str "a.png") ∧
      first.document.find? "strength" = some (.int 1) := by
  have axes : ∀ axis ∈ typedOffRequest.activeAxes,
      axis.hasField = true ∧ axis.contributed ({} : SweepOptions).catalog ≠ [] := by
    decide +kernel
  have combinations : Combination.all (typedOffRequest.sweepAxes ({} : SweepOptions).catalog) =
      [⟨.number (.ofInt 1), .number (.ofInt 2), none⟩] := by
    rw [sweepAxes, Axis.resolve_eq (by decide), Axis.resolve_eq (by decide)]
    decide +kernel
  obtain ⟨report, run⟩ := exists_generate_eq_ok axes ⟨0, 0⟩
  obtain ⟨first, rest, h, hc⟩ := exists_first_of_combinations run combinations
  have document := document_of_assignments run (by rw [h]; rfl) hc
  have other (key : String) (ne : key ≠ Provenance.key) :
      first.document.find? key = Dict.find? key
        (Document.dropStale ({} : SweepOptions).catalog.initImage
          (((typedOffRequest.effectiveBase {}).1.writeAll [(["seed"], .int 1), (["steps"], .int 2)]).put
            "prompts" (Prompts.toJson [("0", "")]))) := by
    rw [document, Dict.find?_put_of_ne ne, axes_eq run]
    rfl
  refine ⟨report, first, rest, run, by decide +kernel, h, ?_, ?_, ?_⟩
  all_goals
    rw [other _ (by decide)]
    rfl

end SweepRequest

end SettingsSweep

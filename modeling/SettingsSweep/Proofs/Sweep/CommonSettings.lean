import SettingsSweep.Proofs.Document.KeyOrder
import SettingsSweep.Proofs.Sweep.KeyframeText
import Mathlib.Data.List.Induction

/-!
Filling in the form of common settings, step by step. A field is written over by each text that is set and the motion fields
of a mode only fill gaps, so a setting holds the last text given to it, or else what the first mode offers for it.
-/

set_option autoImplicit false

namespace SettingsSweep

inductive FormStep
  | write (field raw : String)
  | choose (mode : AnimationMode) (base : Document)

namespace FormStep

open CommonSettings

def Sets (step : FormStep) (name raw : String) : Prop :=
  ∃ field, step = .write field raw ∧ fieldName field = name ∧ Text.isBlankText raw = false

def Lists (step : FormStep) (name : String) : Prop :=
  ∃ mode base, step = .choose mode base ∧ ∃ default, (name, default) ∈ mode.motionFields

/-- What a step gives to a setting, whatever it held. -/
def given? (catalog : Catalog) (name : String) : FormStep → Option Json
  | .write field raw =>
    if fieldName field = name ∧ Text.isBlankText raw = false then some (fieldValue catalog name (Text.trim raw)) else none
  | .choose mode _ => if name = "animation_mode" then some (.str mode.name) else none

/-- What a step gives to a setting that holds nothing. -/
def offered? (name : String) : FormStep → Option Json
  | .write .. => none
  | .choose mode base => (Dict.find? name mode.motionFields).map (motionValue base name)

theorem given?_of_sets {step : FormStep} {name raw : String} (h : step.Sets name raw) (catalog : Catalog) :
    step.given? catalog name = some (fieldValue catalog name (Text.trim raw)) := by
  obtain ⟨field, rfl, named, visible⟩ := h
  exact if_pos ⟨named, visible⟩

theorem given?_ne_none_iff {step : FormStep} {name : String} {catalog : Catalog} : step.given? catalog name ≠ none ↔
    (∃ raw, step.Sets name raw) ∨ (name = "animation_mode" ∧ ∃ mode base, step = .choose mode base) := by
  cases step with
  | write field raw =>
    constructor
    · intro given
      exact .inl ⟨raw, field, rfl, by_contra fun h => given (if_neg h)⟩
    · rintro (⟨raw, sets⟩ | ⟨-, mode, base, ⟨⟩⟩)
      rw [given?_of_sets sets]
      exact Option.some_ne_none _
  | choose mode base =>
    rw [given?]
    by_cases here : name = "animation_mode"
    · rw [if_pos here]
      exact iff_of_true (Option.some_ne_none _) (.inr ⟨here, mode, base, rfl⟩)
    · rw [if_neg here]
      refine iff_of_false (fun given => given rfl) ?_
      rintro (⟨raw, field, ⟨⟩, -⟩ | ⟨same, -⟩)
      exact here same

theorem given?_eq_none_iff {name : String} (ne : name ≠ "animation_mode") {step : FormStep} {catalog : Catalog} :
    step.given? catalog name = none ↔ ∀ raw, ¬ step.Sets name raw := by
  rw [← not_iff_not, ← ne_eq, given?_ne_none_iff, not_forall_not]
  exact or_iff_left fun h => ne h.1

theorem find?_motionFields {mode : AnimationMode} {name default : String} :
    Dict.find? name mode.motionFields = some default ↔ (name, default) ∈ mode.motionFields := by
  have unique : (Dict.keys mode.motionFields).Nodup := by cases mode <;> decide
  exact (Dict.mem_iff_find? unique).symm

theorem offered?_mode {mode : AnimationMode} {name default : String} (h : (name, default) ∈ mode.motionFields)
    (base : Document) : (choose mode base).offered? name = some (motionValue base name default) := by
  rw [offered?, find?_motionFields.2 h]
  rfl

theorem offered?_eq_none_iff {step : FormStep} {name : String} : step.offered? name = none ↔ ¬ step.Lists name := by
  cases step with
  | write field raw => exact iff_of_true rfl fun ⟨_, _, same, _⟩ => nomatch same
  | choose mode base =>
    rw [offered?, Option.map_eq_none_iff, ← not_iff_not, not_not, ← ne_eq, Option.ne_none_iff_exists']
    simp only [find?_motionFields]
    constructor
    · rintro ⟨default, listed⟩
      exact ⟨mode, base, rfl, default, listed⟩
    · rintro ⟨mode, base, ⟨⟩, default, listed⟩
      exact ⟨default, listed⟩

end FormStep

namespace CommonSettings

variable {catalog : Catalog} {name : String}

def step (catalog : Catalog) (settings : CommonSettings) : FormStep → CommonSettings
  | .write field raw => settings.set catalog field raw
  | .choose mode base => settings.setMode mode base

def ofSteps (catalog : Catalog) (steps : List FormStep) : CommonSettings := steps.foldl (step catalog) []

theorem ofSteps_concat (catalog : Catalog) (steps : List FormStep) (last : FormStep) :
    ofSteps catalog (steps ++ [last]) = step catalog (ofSteps catalog steps) last := by
  simp [ofSteps]

theorem find?_fill_gaps (base : Document) (name : String) (fields : List (String × String)) (settings : CommonSettings) :
    Dict.find? name (fields.foldl (fun (settings : CommonSettings) (field, default) =>
        if settings.has field then settings else settings.put field (motionValue base field default)) settings) =
      (settings.find? name).or ((Dict.find? name fields).map (motionValue base name)) := by
  induction fields generalizing settings with
  | nil => exact (Option.or_none).symm
  | cons entry fields ih =>
    obtain ⟨field, default⟩ := entry
    rw [List.foldl_cons, ih]
    dsimp only
    by_cases here : field = name
    · subst here
      rw [Dict.find?, if_pos rfl, Option.map_some]
      split
      · next held =>
        obtain ⟨v, hv⟩ := Option.isSome_iff_exists.1 held
        rw [hv, Option.some_or, Option.some_or]
      · next free =>
        have none : settings.find? field = none := by simpa [Dict.has] using free
        rw [Dict.find?_put_self, none, Option.some_or, Option.none_or]
    · rw [Dict.find?, if_neg here]
      split
      · rfl
      · rw [Dict.find?_put_of_ne (Ne.symm here)]

theorem find?_step (catalog : Catalog) (settings : CommonSettings) (s : FormStep) (name : String) :
    (step catalog settings s).find? name =
      (s.given? catalog name).or ((settings.find? name).or (s.offered? name)) := by
  cases s with
  | write field raw =>
    change (settings.set catalog field raw).find? name = _
    rw [FormStep.offered?, Option.or_none, FormStep.given?]
    unfold set
    dsimp only
    by_cases blank : Text.isBlankText raw = true
    · rw [if_pos blank, if_neg (by simp [blank]), Option.none_or]
    · rw [if_neg blank]
      by_cases here : fieldName field = name
      · rw [if_pos ⟨here, Bool.eq_false_iff.2 blank⟩, here, Dict.find?_put_self, Option.some_or]
      · rw [if_neg fun h => here h.1, Dict.find?_put_of_ne (Ne.symm here), Option.none_or]
  | choose mode base =>
    change (settings.setMode mode base).find? name = _
    rw [setMode, find?_fill_gaps, FormStep.given?, FormStep.offered?]
    by_cases here : name = "animation_mode"
    · rw [if_pos here, here, Dict.find?_put_self, Option.some_or, Option.some_or]
    · rw [if_neg here, Dict.find?_put_of_ne here, Option.none_or]

/-- A setting holds the last value that was given to it, or else the first that was offered. -/
theorem find?_ofSteps (catalog : Catalog) (steps : List FormStep) (name : String) :
    (ofSteps catalog steps).find? name =
      (steps.filterMap (FormStep.given? catalog name)).getLast?.or (steps.filterMap (FormStep.offered? name)).head? := by
  induction steps using List.reverseRecOn with
  | nil => rfl
  | append_singleton steps last ih =>
    rw [ofSteps_concat, find?_step, ih, List.filterMap_append, List.filterMap_append, List.head?_append]
    cases given : last.given? catalog name with
    | some v =>
      rw [List.filterMap_cons_some given, List.filterMap_nil, List.getLast?_concat, Option.some_or, Option.some_or]
    | none =>
      rw [List.filterMap_cons_none given, List.filterMap_nil, List.append_nil, Option.none_or, Option.or_assoc]
      cases offered : last.offered? name with
      | some v => rw [List.filterMap_cons_some offered]; rfl
      | none => rw [List.filterMap_cons_none offered]; rfl

theorem nodup_keys_ofSteps (catalog : Catalog) (steps : List FormStep) : (ofSteps catalog steps).keys.Nodup := by
  have empty : (Dict.keys ([] : CommonSettings)).Nodup := List.nodup_nil
  refine List.foldlRecOn (motive := fun settings => settings.keys.Nodup) steps (step catalog) empty
    fun settings unique s _ => ?_
  cases s with
  | write field raw =>
    change (set settings catalog field raw).keys.Nodup
    unfold set
    split
    · exact unique
    · exact Dict.nodup_keys_put unique
  | choose mode base =>
    refine List.foldlRecOn (motive := fun filled => (Dict.keys filled).Nodup) mode.motionFields _
      (Dict.nodup_keys_put unique) fun filled unique field _ => ?_
    dsimp only
    split
    · exact unique
    · exact Dict.nodup_keys_put unique

theorem find?_of_last_set (ne : name ≠ "animation_mode") {before after : List FormStep} {s : FormStep} {raw : String}
    (sets : s.Sets name raw) (last : ∀ t ∈ after, ∀ raw, ¬ t.Sets name raw) :
    (ofSteps catalog (before ++ s :: after)).find? name = some (fieldValue catalog name (Text.trim raw)) := by
  have silent : after.filterMap (FormStep.given? catalog name) = [] :=
    List.filterMap_eq_nil_iff.2 fun t ht => (FormStep.given?_eq_none_iff ne).2 (last t ht)
  rw [find?_ofSteps, List.filterMap_append, List.filterMap_cons_some (FormStep.given?_of_sets sets catalog), silent,
    List.getLast?_concat, Option.some_or]

theorem ne_of_mem_motionFields {mode : AnimationMode} {default : String} (h : (name, default) ∈ mode.motionFields) :
    name ≠ "animation_mode" := by
  have apart : ∀ field ∈ mode.motionFields, field.1 ≠ "animation_mode" := by cases mode <;> decide
  exact apart _ h

theorem find?_of_first_mode {before after : List FormStep} {mode : AnimationMode} {base : Document} {default : String}
    (listed : (name, default) ∈ mode.motionFields) (first : ∀ s ∈ before, ¬ s.Lists name)
    (unset : ∀ s ∈ before ++ .choose mode base :: after, ∀ raw, ¬ s.Sets name raw) :
    (ofSteps catalog (before ++ .choose mode base :: after)).find? name = some (motionValue base name default) := by
  have silent : (before ++ .choose mode base :: after).filterMap (FormStep.given? catalog name) = [] :=
    List.filterMap_eq_nil_iff.2 fun s hs => (FormStep.given?_eq_none_iff (ne_of_mem_motionFields listed)).2 (unset s hs)
  have earlier : before.filterMap (FormStep.offered? name) = [] :=
    List.filterMap_eq_nil_iff.2 fun s hs => FormStep.offered?_eq_none_iff.2 (first s hs)
  rw [find?_ofSteps, silent, List.filterMap_append, earlier,
    List.filterMap_cons_some (FormStep.offered?_mode listed base)]
  rfl

/-- The value of the base where it has one that is not blank, and else the default. -/
theorem motionValue_cases (base : Document) (name default : String) :
    (base.find? name = some (motionValue base name default) ∧ isBlank (motionValue base name default) = false) ∨
      (motionValue base name default = .str default ∧ ∀ held, base.find? name = some held → isBlank held = true) := by
  unfold motionValue
  cases found : base.find? name with
  | none => exact .inr ⟨rfl, nofun⟩
  | some held =>
    dsimp only
    by_cases blank : isBlank held = true
    · rw [if_pos blank]
      exact .inr ⟨rfl, fun _ same => Option.some.inj same ▸ blank⟩
    · rw [if_neg blank]
      exact .inl ⟨rfl, Bool.eq_false_iff.2 blank⟩

theorem mem_keys_ofSteps_iff {steps : List FormStep} : name ∈ (ofSteps catalog steps).keys ↔
    (∃ s ∈ steps, ∃ raw, s.Sets name raw) ∨ (∃ s ∈ steps, s.Lists name) ∨
      (name = "animation_mode" ∧ ∃ mode base, FormStep.choose mode base ∈ steps) := by
  have mem : name ∈ (ofSteps catalog steps).keys ↔ (∃ s ∈ steps, s.given? catalog name ≠ none) ∨
      ∃ s ∈ steps, s.offered? name ≠ none := by
    rw [← not_iff_not, ← Dict.find?_eq_none_iff, find?_ofSteps, Option.or_eq_none_iff, List.getLast?_eq_none_iff,
      List.head?_eq_none_iff, List.filterMap_eq_nil_iff, List.filterMap_eq_nil_iff]
    simp only [not_or, not_exists, not_and, not_not]
  simp only [mem, FormStep.given?_ne_none_iff, ne_eq, FormStep.offered?_eq_none_iff, not_not]
  constructor
  · rintro (⟨s, hs, sets | ⟨here, mode, base, rfl⟩⟩ | listed)
    · exact .inl ⟨s, hs, sets⟩
    · exact .inr (.inr ⟨here, mode, base, hs⟩)
    · exact .inr (.inl listed)
  · rintro (⟨s, hs, sets⟩ | listed | ⟨here, mode, base, hs⟩)
    · exact .inl ⟨s, hs, .inl sets⟩
    · exact .inr listed
    · exact .inl ⟨_, hs, .inr ⟨here, mode, base, rfl⟩⟩

theorem exists_set_of_find? (catalog : Catalog) (ne : name ≠ "animation_mode") {steps : List FormStep}
    (given : ∃ s ∈ steps, ∃ raw, s.Sets name raw) :
    ∃ s ∈ steps, ∃ raw, s.Sets name raw ∧
      (ofSteps catalog steps).find? name = some (fieldValue catalog name (Text.trim raw)) := by
  obtain ⟨s, hs, raw, sets⟩ := given
  have some : (steps.filterMap (FormStep.given? catalog name)) ≠ [] :=
    List.ne_nil_of_mem (List.mem_filterMap.2 ⟨s, hs, FormStep.given?_of_sets sets catalog⟩)
  obtain ⟨t, ht, last⟩ := List.mem_filterMap.1 (List.getLast_mem some)
  obtain ⟨raw', sets'⟩ : ∃ raw, t.Sets name raw := by
    by_contra never
    rw [(FormStep.given?_eq_none_iff ne).2 (not_exists.1 never)] at last
    cases last
  refine ⟨t, ht, raw', sets', ?_⟩
  rw [find?_ofSteps, List.getLast?_eq_some_getLast some, ← last, FormStep.given?_of_sets sets', Option.some_or]

theorem keyframes_of_set (ne : name ≠ "animation_mode") {steps : List FormStep}
    (given : ∃ s ∈ steps, ∃ raw, s.Sets name raw) (kind : catalog.classify name = .schedule) :
    ∃ text, (ofSteps catalog steps).find? name = some (.str text) ∧ Schedule.KeyframeForm text := by
  obtain ⟨-, -, raw, -, held⟩ := exists_set_of_find? catalog ne given
  refine ⟨Schedule.wrap (Text.trim raw), ?_, Schedule.isKeyframe_iff.1 (Schedule.isKeyframe_wrap _)⟩
  rw [held, fieldValue, kind]

theorem find?_ofSteps_of_one_mode {before after : List FormStep} (mode : AnimationMode) (base : Document)
    (writes : ∀ s ∈ before ++ after, ∃ field raw, s = .write field raw)
    (beside : ∀ s ∈ before ++ after, ∀ raw, ¬ s.Sets "animation_mode" raw) :
    (ofSteps catalog (before ++ .choose mode base :: after)).find? name =
      if name = "animation_mode" then some (.str mode.name)
      else ((before ++ after).filterMap (FormStep.given? catalog name)).getLast?.or
        ((FormStep.choose mode base).offered? name) := by
  have offers : ∀ s ∈ before ++ after, s.offered? name = none := by
    intro s hs
    obtain ⟨field, raw, rfl⟩ := writes s hs
    rfl
  have offered : (before ++ .choose mode base :: after).filterMap (FormStep.offered? name) =
      ((FormStep.choose mode base).offered? name).toList := by
    rw [List.filterMap_append, List.filterMap_eq_nil_iff.2 fun s hs => offers s (List.mem_append_left _ hs),
      List.nil_append, List.filterMap_cons, List.filterMap_eq_nil_iff.2 fun s hs => offers s (List.mem_append_right _ hs)]
    cases (FormStep.choose mode base).offered? name <;> rfl
  rw [find?_ofSteps, offered, Option.head?_toList]
  split
  · next here =>
    have silent : ∀ s ∈ before ++ after, s.given? catalog name = none := by
      intro s hs
      obtain ⟨field, raw, rfl⟩ := writes s hs
      exact if_neg fun h => beside _ hs raw ⟨field, rfl, here ▸ h⟩
    have named : (FormStep.choose mode base).given? catalog name = some (.str mode.name) := if_pos here
    rw [List.filterMap_append, List.filterMap_eq_nil_iff.2 fun s hs => silent s (List.mem_append_left _ hs),
      List.filterMap_cons_some named, List.filterMap_eq_nil_iff.2 fun s hs => silent s (List.mem_append_right _ hs)]
    rfl
  · next ne =>
    have none : (FormStep.choose mode base).given? catalog name = none := if_neg ne
    rw [List.filterMap_append, List.filterMap_cons_none none, ← List.filterMap_append]

theorem perm_of_mode_moved {before after before' after' : List FormStep} (same : before ++ after = before' ++ after')
    (mode : AnimationMode) (base : Document) (writes : ∀ s ∈ before ++ after, ∃ field raw, s = .write field raw)
    (beside : ∀ s ∈ before ++ after, ∀ raw, ¬ s.Sets "animation_mode" raw) :
    (ofSteps catalog (before ++ .choose mode base :: after)).Perm
      (ofSteps catalog (before' ++ .choose mode base :: after')) := by
  have unique (steps : List FormStep) : (ofSteps catalog steps).Nodup := .of_map _ (nodup_keys_ofSteps catalog steps)
  refine (List.perm_ext_iff_of_nodup (unique _) (unique _)).2 fun ⟨name, value⟩ => ?_
  rw [Dict.mem_iff_find? (nodup_keys_ofSteps catalog _), Dict.mem_iff_find? (nodup_keys_ofSteps catalog _),
    find?_ofSteps_of_one_mode mode base writes beside, find?_ofSteps_of_one_mode mode base (same ▸ writes) (same ▸ beside),
    same]

/-- A field that is set holds its last text, wherever modes are chosen; a motion field that is never set holds what the base
    has for it, or its default, as the first mode with that field was chosen; there are no other settings but the mode;
    schedules that were set are keyframes; and one choice of a mode can stand anywhere among the texts. -/
theorem ofSteps_holds (catalog : Catalog) (steps : List FormStep) :
    (∀ name ≠ "animation_mode", ∀ before s after raw, steps = before ++ s :: after → s.Sets name raw →
      (∀ t ∈ after, ∀ raw, ¬ t.Sets name raw) →
      (ofSteps catalog steps).find? name = some (fieldValue catalog name (Text.trim raw))) ∧
    (∀ name before mode base after default, steps = before ++ .choose mode base :: after →
      (name, default) ∈ mode.motionFields → (∀ s ∈ before, ¬ s.Lists name) → (∀ s ∈ steps, ∀ raw, ¬ s.Sets name raw) →
      ∃ held, (ofSteps catalog steps).find? name = some held ∧
        ((base.find? name = some held ∧ isBlank held = false) ∨
          (held = .str default ∧ ∀ v, base.find? name = some v → isBlank v = true))) ∧
    (∀ name, name ∈ (ofSteps catalog steps).keys ↔ (∃ s ∈ steps, ∃ raw, s.Sets name raw) ∨ (∃ s ∈ steps, s.Lists name) ∨
      (name = "animation_mode" ∧ ∃ mode base, FormStep.choose mode base ∈ steps)) ∧
    (∀ name ≠ "animation_mode", (∃ s ∈ steps, ∃ raw, s.Sets name raw) → catalog.classify name = .schedule →
      ∃ text, (ofSteps catalog steps).find? name = some (.str text) ∧ Schedule.KeyframeForm text) ∧
    (∀ raw, Schedule.wrap (Schedule.wrap raw) = Schedule.wrap raw) ∧
    (∀ before mode base after before' after', steps = before ++ .choose mode base :: after →
      before ++ after = before' ++ after' → (∀ s ∈ before ++ after, ∃ field raw, s = .write field raw) →
      (∀ s ∈ before ++ after, ∀ raw, ¬ s.Sets "animation_mode" raw) →
      (ofSteps catalog steps).Perm (ofSteps catalog (before' ++ .choose mode base :: after'))) := by
  refine ⟨?lastSet, ?firstMode, fun name => mem_keys_ofSteps_iff, fun name ne given kind => keyframes_of_set ne given kind,
    Schedule.wrap_wrap, ?moved⟩
  case lastSet =>
    rintro name ne before s after raw rfl sets last
    exact find?_of_last_set ne sets last
  case firstMode =>
    rintro name before mode base after default rfl listed first unset
    exact ⟨_, find?_of_first_mode listed first unset, motionValue_cases base name default⟩
  case moved =>
    rintro before mode base after before' after' rfl same writes beside
    exact perm_of_mode_moved same mode base writes beside

/-- The later of two texts counts, the earlier of two modes, and blank text sets nothing. -/
def filledForm : List FormStep :=
  [.write "cfg_scale_schedule" "7", .choose .flat [("zoom", .str "0: (2)")], .write "zoom" "  ", .write " cfg_scale " " 8 ",
    .choose .spatial [("zoom", .str "0: (3)"), ("translation_z", .str " ")]]

theorem ofSteps_holds_filled :
    (ofSteps {} filledForm).find? "cfg_scale" = some (.str "0: (8)") ∧
      (ofSteps {} filledForm).find? "zoom" = some (.str "0: (2)") ∧
      (ofSteps {} filledForm).find? "translation_z" = some (.str "0: (1.75)") ∧
      "cfg_scale_schedule" ∉ (ofSteps {} filledForm).keys ∧ "animation_mode" ∈ (ofSteps {} filledForm).keys ∧
      (∃ text, (ofSteps {} filledForm).find? "cfg_scale" = some (.str text) ∧ Schedule.KeyframeForm text) ∧
      (ofSteps {} [.write "zoom" "2", .choose .flat [], .write "zoom" "1"]).Perm
        (ofSteps {} [.choose .flat [], .write "zoom" "2", .write "zoom" "1"]) := by
  have texts : ∀ s ∈ filledForm, ∀ name raw, s.Sets name raw → name = "cfg_scale" := by
    rintro s hs name raw ⟨field, rfl, rfl, visible⟩
    simp only [filledForm, List.mem_cons, FormStep.write.injEq, reduceCtorEq, List.not_mem_nil, or_false, false_or] at hs
    obtain ⟨rfl, -⟩ | ⟨rfl, rfl⟩ | ⟨rfl, -⟩ := hs
    · decide
    · exact absurd visible (by decide)
    · decide
  have unset {name : String} (ne : name ≠ "cfg_scale") : ∀ s ∈ filledForm, ∀ raw, ¬ s.Sets name raw :=
    fun s hs raw sets => ne (texts s hs _ _ sets)
  have sets : (FormStep.write " cfg_scale " " 8 ").Sets "cfg_scale" " 8 " := ⟨_, rfl, by decide, by decide⟩
  obtain ⟨last, first, keys, frames, -, -⟩ := ofSteps_holds {} filledForm
  obtain ⟨-, -, -, -, -, moved⟩ := ofSteps_holds {} [.write "zoom" "2", .choose .flat [], .write "zoom" "1"]
  obtain ⟨zoom, heldZoom, baseZoom⟩ := first "zoom" [_] .flat [("zoom", .str "0: (2)")] [_, _, _] "0: (1.04)" rfl
    (by decide) (by rintro s hs ⟨mode, base, rfl, -⟩; simp at hs) (unset (by decide))
  obtain ⟨depth, heldDepth, baseDepth⟩ := first "translation_z" [_, _, _, _] .spatial
    [("zoom", .str "0: (3)"), ("translation_z", .str " ")] [] "0: (1.75)" rfl (by decide)
    (by
      rintro s hs ⟨mode, base, rfl, default, listed⟩
      simp only [List.mem_cons, FormStep.choose.injEq, reduceCtorEq, List.not_mem_nil, or_false, false_or] at hs
      obtain ⟨rfl, -⟩ := hs
      revert listed
      simp [AnimationMode.motionFields])
    (unset (by decide))
  refine ⟨?_, ?_, ?_, ?_, ?_, ?_, ?_⟩
  · exact last "cfg_scale" (by decide) [_, _, _] (.write " cfg_scale " " 8 ") [_] " 8 " rfl sets
      (by rintro t ht raw ⟨field, rfl, -⟩; simp at ht)
  · obtain ⟨there, -⟩ | ⟨-, blank⟩ := baseZoom
    · rw [heldZoom, ← there]
      rfl
    · exact absurd (blank _ rfl) (by decide)
  · obtain ⟨there, visible⟩ | ⟨rfl, -⟩ := baseDepth
    · obtain rfl : .str " " = depth := Option.some.inj there
      exact absurd visible (by decide)
    · exact heldDepth
  · refine fun there => ?_
    obtain ⟨s, hs, raw, sets⟩ | ⟨s, hs, mode, base, -, default, listed⟩ | ⟨same, -⟩ := (keys _).1 there
    · exact absurd (texts s hs _ _ sets) (by decide)
    · revert listed
      cases mode <;> simp [AnimationMode.motionFields]
    · exact absurd same (by decide)
  · exact (keys _).2 (.inr (.inr ⟨rfl, .flat, _, by simp [filledForm]; rfl⟩))
  · exact frames "cfg_scale" (by decide) ⟨_, by simp [filledForm], _, sets⟩ (by decide)
  · exact moved [_] .flat [] [_] [] [_, _] rfl rfl (by simp)
      (by
        rintro s hs raw ⟨field, rfl, named, -⟩
        simp at hs
        rcases hs with ⟨rfl, -⟩ | ⟨rfl, -⟩ <;> revert named <;> decide)

end CommonSettings

end SettingsSweep

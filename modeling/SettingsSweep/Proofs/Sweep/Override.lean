import SettingsSweep.Proofs.Document.Path
import SettingsSweep.Sweep.Override
import Mathlib.Data.List.Basic

/-!
What the assignments of a combination come to: writes to the document on one side, merged prompts on the
other. Then the removal of image settings that mean nothing.
-/

set_option autoImplicit false

namespace SettingsSweep

namespace Assignment

def writes (assignments : List Assignment) : List (List String × Json) :=
  (assignments.filter fun a => a.kind ≠ .prompts).map fun a =>
    (Text.segments a.field, a.value.toJson)

def mergeAll (prompts : Prompts) (assignments : List Assignment) : Prompts :=
  (assignments.filter fun a => a.kind = .prompts).foldl
    (fun p a => (p.merge a.mode a.axis a.value).1) prompts

end Assignment

namespace Draft

theorem assign_of_prompts {a : Assignment} (h : a.kind = .prompts) (draft : Draft) :
    (draft.assign a).1 =
      ⟨draft.document, (draft.prompts.merge a.mode a.axis a.value).1⟩ := by
  rw [assign, h]

theorem assign_of_ne_prompts {a : Assignment} (h : a.kind ≠ .prompts) (draft : Draft) :
    (draft.assign a).1 =
      ⟨draft.document.setAt (Text.segments a.field) a.value.toJson, draft.prompts⟩ := by
  unfold assign
  split
  · next e => exact absurd e h
  · rw [Document.setPath_eq]
    rfl

theorem assignAll_eq (draft : Draft) (assignments : List Assignment) :
    (draft.assignAll assignments).1 =
      ⟨draft.document.writeAll (Assignment.writes assignments),
        Assignment.mergeAll draft.prompts assignments⟩ := by
  induction assignments generalizing draft with
  | nil => rfl
  | cons a rest ih =>
    change ((draft.assign a).1.assignAll rest).1 = _
    rw [ih]
    by_cases h : a.kind = .prompts
    · simp [assign_of_prompts h, Assignment.writes, Assignment.mergeAll, h]
    · simp [assign_of_ne_prompts h, Assignment.writes, Assignment.mergeAll, h, Document.writeAll]

end Draft

namespace Document

theorem find?_removeAll_of_notMem {key : String} {keys : List String} (h : key ∉ keys)
    (doc : Document) : (doc.removeAll keys).find? key = doc.find? key := by
  induction keys generalizing doc with
  | nil => rfl
  | cons first keys ih =>
    change (removeAll (doc.remove first) keys).find? key = _
    rw [ih (List.not_mem_of_not_mem_cons h),
      Dict.find?_remove_of_ne (List.ne_of_not_mem_cons h)]

theorem find?_removeAll_of_mem {key : String} {keys : List String} (h : key ∈ keys)
    (doc : Document) : (doc.removeAll keys).find? key = none := by
  induction keys generalizing doc with
  | nil => exact absurd h List.not_mem_nil
  | cons first keys ih =>
    change (removeAll (doc.remove first) keys).find? key = none
    by_cases hk : key ∈ keys
    · exact ih hk _
    · obtain rfl := (List.mem_cons.1 h).resolve_right hk
      rw [find?_removeAll_of_notMem hk, Dict.find?_remove_self]

/-- The document says that there is no initial image. -/
def ImageOff (fields : InitImageFields) (doc : Document) : Prop :=
  doc.find? fields.flag = some (.bool false)

theorem dropStale_of_off {fields : InitImageFields} {doc : Document} (h : doc.ImageOff fields) :
    dropStale fields doc = doc.removeAll fields.dependents := by
  unfold dropStale
  rw [h]

theorem dropStale_of_not_off {fields : InitImageFields} {doc : Document}
    (h : ¬ doc.ImageOff fields) : dropStale fields doc = doc := by
  unfold dropStale
  split
  · next off => exact absurd off h
  · rfl

/-- A path at or below a setting that goes with the image. -/
def Dropped (fields : InitImageFields) (doc : Document) (path : List String) : Prop :=
  doc.ImageOff fields ∧ ∃ key ∈ fields.dependents, path.head? = some key

theorem getAt?_dropStale_of_dropped {fields : InitImageFields} {doc : Document}
    {path : List String} (h : doc.Dropped fields path) :
    getAt? path (dropStale fields doc) = none := by
  obtain ⟨off, key, hk, head⟩ := h
  rw [dropStale_of_off off]
  exact getAt?_of_find?_eq_none (find?_removeAll_of_mem hk doc) head

theorem getAt?_dropStale_of_not_dropped {fields : InitImageFields} {doc : Document}
    {path : List String} (h : ¬ doc.Dropped fields path) :
    getAt? path (dropStale fields doc) = getAt? path doc := by
  by_cases off : doc.ImageOff fields
  · rw [dropStale_of_off off]
    cases path with
    | nil => rfl
    | cons key keys =>
      have hk : key ∉ fields.dependents := fun hk => h ⟨off, key, hk, rfl⟩
      exact getAt?_congr (find?_removeAll_of_notMem hk doc) keys
  · rw [dropStale_of_not_off off]

theorem find?_dropStale_of_notMem {fields : InitImageFields} {key : String}
    (h : key ∉ fields.dependents) (doc : Document) :
    (dropStale fields doc).find? key = doc.find? key := by
  by_cases off : doc.ImageOff fields
  · rw [dropStale_of_off off, find?_removeAll_of_notMem h]
  · rw [dropStale_of_not_off off]

end Document

end SettingsSweep

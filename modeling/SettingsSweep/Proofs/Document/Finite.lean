import SettingsSweep.Json.Finite
import SettingsSweep.Proofs.Document.Leaves
import SettingsSweep.Proofs.Scalar
import SettingsSweep.Sweep.InitImage

/-!
Documents without infinities and NaN. Nothing that is done to a document brings one in: not even a scalar that is no finite
number, since that is written as null.
-/

set_option autoImplicit false

namespace SettingsSweep

namespace Json

theorem isFinite_ofNumber (x : Binary64) : (ofNumber x).isFinite = true := by
  unfold ofNumber
  cases whole : x.toInt? with
  | some n =>
    have finite : x.isFinite = true := by
      cases x with
      | finite s m e canonical => rfl
      | infinite s => cases whole
      | nan => cases whole
    by_cases safe : n.natAbs ≤ maxSafeInteger <;> simp [safe, isFinite, finite]
  | none =>
    cases finite : x.isFinite <;> simp [isFinite, finite]

theorem isFinite_of_mem {members : Document} (h : (obj members).isFinite = true) {key : String} {value : Json}
    (found : members.find? key = some value) : value.isFinite = true :=
  isFinite_obj_iff.1 h _ (Dict.mem_of_find? found)

end Json

theorem Scalar.isFinite_toJson (v : Scalar) : v.toJson.isFinite = true := by
  cases v with
  | number x => exact Json.isFinite_ofNumber x
  | bool b => rfl
  | text s => rfl

theorem Prompts.isFinite_toJson (prompts : Prompts) : prompts.toJson.isFinite = true := by
  refine Json.isFinite_obj_iff.2 fun member hm => ?_
  obtain ⟨frame, -, rfl⟩ := List.mem_map.1 hm
  rfl

namespace Document

variable {doc : Document} {value : Json}

theorem isFinite_put (h : (Json.obj doc).isFinite = true) (hv : value.isFinite = true) (key : String) :
    (Json.obj (doc.put key value)).isFinite = true := by
  refine Json.isFinite_obj_iff.2 fun member hm => ?_
  rcases Dict.mem_put hm with rfl | hm
  · exact hv
  · exact Json.isFinite_obj_iff.1 h member hm

theorem isFinite_removeAll (h : (Json.obj doc).isFinite = true) (keys : List String) :
    (Json.obj (doc.removeAll keys)).isFinite = true := by
  have remove (d : Document) (key : String) (hd : (Json.obj d).isFinite = true) :
      (Json.obj (d.remove key)).isFinite = true := by
    induction d with
    | nil => exact hd
    | cons member d ih =>
      obtain ⟨first, old⟩ := member
      obtain ⟨here, later⟩ := List.forall_mem_cons.1 (Json.isFinite_obj_iff.1 hd)
      have kept := ih (Json.isFinite_obj_iff.2 later)
      rw [Dict.remove]
      split
      · exact kept
      · exact Json.isFinite_obj_iff.2 (List.forall_mem_cons.2 ⟨here, Json.isFinite_obj_iff.1 kept⟩)
  induction keys generalizing doc with
  | nil => exact h
  | cons key keys ih => exact ih (remove doc key h)

theorem isFinite_dropStale (h : (Json.obj doc).isFinite = true) (fields : InitImageFields) :
    (Json.obj (doc.dropStale fields)).isFinite = true := by
  unfold dropStale
  split
  · exact isFinite_removeAll h _
  · exact h

theorem isFinite_objectAt (h : (Json.obj doc).isFinite = true) (key : String) :
    (Json.obj (doc.objectAt key)).isFinite = true := by
  unfold objectAt
  split
  · next members found => exact Json.isFinite_of_mem h found
  · rfl

theorem isFinite_setAt (h : (Json.obj doc).isFinite = true) (hv : value.isFinite = true) (path : List String) :
    (Json.obj (doc.setAt path value)).isFinite = true := by
  induction path generalizing doc with
  | nil => exact h
  | cons key keys ih =>
    by_cases last : keys = []
    · rw [last]
      exact isFinite_put h hv key
    · rw [setAt_cons key last]
      exact isFinite_put h (ih (isFinite_objectAt h key)) key

theorem isFinite_writeAll (h : (Json.obj doc).isFinite = true) {writes : List (List String × Json)}
    (all : ∀ write ∈ writes, write.2.isFinite = true) : (Json.obj (doc.writeAll writes)).isFinite = true := by
  induction writes generalizing doc with
  | nil => exact h
  | cons write writes ih =>
    obtain ⟨here, later⟩ := List.forall_mem_cons.1 all
    exact ih (isFinite_setAt h here write.1) later

theorem isFinite_write (h : (Json.obj doc).isFinite = true) (hv : value.isFinite = true) (key : String) :
    (Json.obj (doc.write key value).1).isFinite = true := by
  unfold write
  split
  · rw [setPath_eq]
    exact isFinite_setAt h hv _
  · exact isFinite_put h hv key

mutual

theorem isFinite_merge : ∀ (overrides : List (String × Json)) (doc : Document),
    (∀ member ∈ overrides, member.2.isFinite = true) → (Json.obj doc).isFinite = true →
    (Json.obj (doc.merge overrides).1).isFinite = true
  | [], _, _, h => h
  | (key, incoming) :: overrides, doc, all, h => by
    obtain ⟨here, later⟩ := List.forall_mem_cons.1 all
    exact isFinite_merge overrides _ later (isFinite_mergeMember incoming key doc here h)

theorem isFinite_mergeMember : ∀ (incoming : Json) (key : String) (doc : Document),
    incoming.isFinite = true → (Json.obj doc).isFinite = true →
    (Json.obj (doc.mergeMember key incoming).1).isFinite = true
  | .obj incoming, key, doc, hv, h => by
    rw [mergeMember]
    split
    · next existing found =>
      exact isFinite_put h
        (isFinite_merge incoming existing (Json.isFinite_obj_iff.1 hv) (Json.isFinite_of_mem h found)) key
    · exact isFinite_write h hv key
  | .null, key, _, hv, h | .bool _, key, _, hv, h | .int _, key, _, hv, h | .real _, key, _, hv, h
  | .str _, key, _, hv, h | .arr _, key, _, hv, h => isFinite_write h hv key

end

theorem isFinite_apply (h : (Json.obj doc).isFinite = true) (image : InitImage) (fields : InitImageFields) :
    (Json.obj (image.apply fields doc)).isFinite = true := by
  cases image with
  | disabled => exact isFinite_dropStale (isFinite_put h rfl _) fields
  | enabled path strength =>
    have number : (InitImage.strengthJson strength).isFinite = true := by
      unfold InitImage.strengthJson
      dsimp only
      split
      · exact Json.isFinite_ofNumber _
      · rfl
    exact isFinite_put (isFinite_put (isFinite_put h rfl _) rfl _) number _

end Document

end SettingsSweep

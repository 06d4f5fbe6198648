import SettingsSweep.Proofs.Axis.NumeralGrammar
import SettingsSweep.Proofs.Document.KeyOrder
import SettingsSweep.Proofs.Document.Unfolding
import SettingsSweep.Proofs.Sweep.Override
import SettingsSweep.Sweep.Request

/-!
The layers under a sweep: the base, the common settings over it, and the settings of the initial image over both. Each
layer is read where it writes, what no layer writes is read in the base, and the order of the common settings shows in
nothing but the order of keys.
-/

set_option autoImplicit false

namespace SettingsSweep

namespace Document

variable {doc other : Document}

/-- Common settings without objects are written one by one, dotted keys at their paths. -/
theorem merge_eq_writeAll {overrides : Document} (flat : ∀ member ∈ overrides, member.2.object? = none)
    (doc : Document) :
    (doc.merge overrides).1 = doc.writeAll (overrides.map fun member => (Text.segments member.1, member.2)) := by
  rw [merge_eq_foldl]
  induction overrides generalizing doc with
  | nil => rfl
  | cons member overrides ih =>
    obtain ⟨leaf, flat⟩ := List.forall_mem_cons.1 flat
    rw [List.foldl_cons, mergeMember_of_not_both (.inl leaf), ih flat]
    rfl

theorem get?_of_notMem {name : String} (plain : '.' ∉ name.toList) (doc : Document) :
    doc.get? name = doc.find? name := by
  rw [get?, Text.segments_of_notMem plain]
  rfl

theorem getAt?_removeAll_of_head_notMem {path keys : List String} (beside : ∀ key ∈ keys, path.head? ≠ some key)
    (doc : Document) : getAt? path (doc.removeAll keys) = doc.getAt? path := by
  cases path with
  | nil => rfl
  | cons first rest => exact getAt?_congr (find?_removeAll_of_notMem (fun hk => beside first hk rfl) doc) rest

theorem Reordered.removeAll (h : doc.Reordered other) (keys : List String) :
    Reordered (Document.removeAll doc keys) (Document.removeAll other keys) := by
  induction keys generalizing doc other with
  | nil => exact h
  | cons key keys ih => exact ih h.remove

end Document

def InitImageFields.names (fields : InitImageFields) : List String := fields.flag :: fields.dependents

namespace InitImage

open Document (Reordered)

variable {fields : InitImageFields} {doc other : Document}

theorem apply_disabled (fields : InitImageFields) (doc : Document) :
    apply .disabled fields doc = Document.removeAll (doc.put fields.flag (.bool false)) fields.dependents :=
  Document.dropStale_of_off (Dict.find?_put_self _ _ _)

/-- A text without its quotes, which count only at both ends. -/
inductive Unquoted (text : List Char) : List Char → Prop
  | quoted {inner : List Char} (ends : text = '"' :: (inner ++ ['"'])) : Unquoted text inner
  | bare (other : ∀ inner, text ≠ '"' :: (inner ++ ['"'])) : Unquoted text text

theorem unquoted_unquote (text : List Char) : Unquoted text (unquote text) := by
  unfold unquote
  split
  · next rest =>
    split
    · next last =>
      refine .quoted (congrArg _ ?_)
      obtain ⟨inner, rfl⟩ := List.getLast?_eq_some_iff.1 last
      rw [List.dropLast_concat]
    · next last =>
      refine .bare fun inner same => last ?_
      rw [(List.cons.inj same).2, List.getLast?_concat]
  · next other => exact .bare fun inner same => other _ same

theorem strengthJson_eq (strength : String) : strengthJson strength =
    match Scalar.finite? strength with
    | some x => .ofNumber x
    | none => .str (Text.trim strength) := by
  have trimmed : Scalar.finite? (Text.trim strength) = Scalar.finite? strength := by
    rw [Scalar.finite?, Scalar.finite?, Text.trim, String.toList_ofList, Text.trimChars_trimChars]
  cases read : Scalar.finite? strength with
  | some x => simp only [strengthJson, trimmed, read]
  | none => simp only [strengthJson, trimmed, read]

theorem find?_apply_enabled (names : fields.names.Nodup) (path strength : String) (doc : Document) :
    (apply (.enabled path strength) fields doc).find? fields.flag = some (.bool true) ∧
      (apply (.enabled path strength) fields doc).find? fields.path = some (.str (normalizePath path)) ∧
      (apply (.enabled path strength) fields doc).find? fields.strength = some (strengthJson strength) := by
  have apart : fields.flag ≠ fields.path ∧ fields.flag ≠ fields.strength ∧ fields.path ≠ fields.strength := by
    simpa [InitImageFields.names, InitImageFields.dependents, and_assoc] using names
  obtain ⟨flagPath, flagStrength, pathStrength⟩ := apart
  refine ⟨?_, ?_, Dict.find?_put_self _ _ _⟩
  · rw [apply, Dict.find?_put_of_ne flagStrength, Dict.find?_put_of_ne flagPath, Dict.find?_put_self]
  · rw [apply, Dict.find?_put_of_ne pathStrength, Dict.find?_put_self]

theorem find?_apply_disabled (kept : fields.flag ∉ fields.dependents) (doc : Document) :
    (apply .disabled fields doc).find? fields.flag = some (.bool false) ∧
      ∀ name ∈ fields.dependents, (apply .disabled fields doc).find? name = none := by
  rw [apply_disabled]
  refine ⟨?_, fun name hn => Document.find?_removeAll_of_mem hn _⟩
  rw [Document.find?_removeAll_of_notMem kept, Dict.find?_put_self]

theorem getAt?_apply (image : InitImage) {path : List String} (beside : ∀ name ∈ fields.names, path.head? ≠ some name)
    (doc : Document) : (image.apply fields doc).getAt? path = doc.getAt? path := by
  obtain ⟨flag, dependents⟩ := List.forall_mem_cons.1 beside
  cases image with
  | disabled =>
    rw [apply_disabled, Document.getAt?_removeAll_of_head_notMem dependents, Document.getAt?_put_of_head_ne flag]
  | enabled image strength =>
    have ⟨first, second⟩ : path.head? ≠ some fields.path ∧ path.head? ≠ some fields.strength :=
      ⟨dependents _ (by simp [InitImageFields.dependents]), dependents _ (by simp [InitImageFields.dependents])⟩
    rw [apply, Document.getAt?_put_of_head_ne second, Document.getAt?_put_of_head_ne first,
      Document.getAt?_put_of_head_ne flag]

theorem reordered_apply (image : InitImage) (h : doc.Reordered other) :
    Reordered (image.apply fields doc) (image.apply fields other) := by
  cases image with
  | disabled =>
    rw [apply_disabled, apply_disabled]
    exact (h.put (.refl _)).removeAll _
  | enabled path strength => exact ((h.put (.refl _)).put (.refl _)).put (.refl _)

end InitImage

namespace SweepRequest

variable {request : SweepRequest} {catalog : Catalog}

/-- The names that the settings of the initial image write or remove. -/
def imageNames (request : SweepRequest) (catalog : Catalog) : List String :=
  match request.initImage with
  | some _ => catalog.initImage.names
  | none => []

def commonWrites (request : SweepRequest) : List (List String × Json) :=
  request.common.map fun member => (Text.segments member.1, member.2)

theorem effectiveBase_eq (flat : ∀ member ∈ request.common, member.2.object? = none) :
    (request.effectiveBase catalog).1 =
      match request.initImage with
      | some image => image.apply catalog.initImage (request.base.writeAll request.commonWrites)
      | none => request.base.writeAll request.commonWrites := by
  rw [commonWrites, ← Document.merge_eq_writeAll flat]
  unfold effectiveBase
  cases request.initImage <;> rfl

theorem getAt?_effectiveBase (flat : ∀ member ∈ request.common, member.2.object? = none) {path : List String}
    (beside : ∀ name ∈ request.imageNames catalog, path.head? ≠ some name) :
    (request.effectiveBase catalog).1.getAt? path = (request.base.writeAll request.commonWrites).getAt? path := by
  rw [effectiveBase_eq flat]
  unfold imageNames at beside
  split
  · next image given =>
    rw [given] at beside
    exact InitImage.getAt?_apply image beside _
  · rfl

theorem reordered_effectiveBase (flat : ∀ member ∈ request.common, member.2.object? = none)
    (apart : (request.commonWrites.map Prod.fst).Pairwise fun p q => ¬ Overlap p q) {other : Document}
    (perm : request.common.Perm other) :
    Document.Reordered (request.effectiveBase catalog).1 (effectiveBase { request with common := other } catalog).1 := by
  have flat' : ∀ member ∈ other, member.2.object? = none := fun member hm => flat member (perm.mem_iff.2 hm)
  have merged : Document.Reordered (request.base.writeAll request.commonWrites)
      (request.base.writeAll (commonWrites { request with common := other })) :=
    Document.reordered_writeAll_of_perm (perm.map _) apart _
  rw [effectiveBase_eq flat, @effectiveBase_eq { request with common := other } catalog flat']
  dsimp only
  cases request.initImage with
  | none => exact merged
  | some image => exact InitImage.reordered_apply image merged

/-- The layers of the effective base. The settings of the image decide on its three names; a common setting is found at its
    path, unless that starts with one of them; what neither reaches is read as in the base. Of the order of the common
    settings nothing is left but the order of keys. -/
theorem effectiveBase_layers (names : catalog.initImage.names.Nodup)
    (plain : ∀ name ∈ catalog.initImage.names, '.' ∉ name.toList)
    (flat : ∀ member ∈ request.common, member.2.object? = none)
    (apart : (request.common.map fun member => Text.segments member.1).Pairwise fun p q => ¬ Overlap p q) :
    (∀ path strength, request.initImage = some (.enabled path strength) →
      (request.effectiveBase catalog).1.get? catalog.initImage.flag = some (.bool true) ∧
        (∃ inner, InitImage.Unquoted (Text.trimChars path.toList) inner ∧
          (request.effectiveBase catalog).1.get? catalog.initImage.path =
            some (.str (String.ofList (inner.map fun c => if c = '\\' then '/' else c)))) ∧
        (request.effectiveBase catalog).1.get? catalog.initImage.strength =
          some (match Scalar.finite? strength with
            | some x => .ofNumber x
            | none => .str (Text.trim strength))) ∧
      (request.initImage = some .disabled →
        (request.effectiveBase catalog).1.get? catalog.initImage.flag = some (.bool false) ∧
          (request.effectiveBase catalog).1.get? catalog.initImage.path = none ∧
          (request.effectiveBase catalog).1.get? catalog.initImage.strength = none) ∧
      (∀ member ∈ request.common,
        (∀ name ∈ request.imageNames catalog, (Text.segments member.1).head? ≠ some name) →
          (request.effectiveBase catalog).1.get? member.1 = some member.2) ∧
      (∀ path : List String, (∀ member ∈ request.common, ¬ Overlap path (Text.segments member.1)) →
        (∀ name ∈ request.imageNames catalog, path.head? ≠ some name) →
          (request.effectiveBase catalog).1.getAt? path = request.base.getAt? path) ∧
      ∀ other : Document, request.common.Perm other → Document.Reordered (request.effectiveBase catalog).1
        (effectiveBase { request with common := other } catalog).1 := by
  have read {name : String} (h : name ∈ catalog.initImage.names) (doc : Document) : doc.get? name = doc.find? name :=
    Document.get?_of_notMem (plain name h) doc
  have known : catalog.initImage.flag ∈ catalog.initImage.names ∧ catalog.initImage.path ∈ catalog.initImage.names ∧
      catalog.initImage.strength ∈ catalog.initImage.names := by
    simp [InitImageFields.names, InitImageFields.dependents]
  have keys : request.commonWrites.map Prod.fst = request.common.map fun member => Text.segments member.1 := by
    simp [commonWrites]
  rw [← keys] at apart
  refine ⟨fun path strength given => ?_, fun given => ?_, fun member hm beside => ?_, fun path free beside => ?_,
    fun other perm => reordered_effectiveBase flat apart perm⟩
  · rw [read known.1, read known.2.1, read known.2.2, effectiveBase_eq flat, given, ← InitImage.strengthJson_eq]
    obtain ⟨on, placed, strong⟩ :=
      InitImage.find?_apply_enabled names path strength (request.base.writeAll request.commonWrites)
    exact ⟨on, ⟨_, InitImage.unquoted_unquote _, placed⟩, strong⟩
  · rw [read known.1, read known.2.1, read known.2.2, effectiveBase_eq flat, given]
    have kept : catalog.initImage.flag ∉ catalog.initImage.dependents := (List.nodup_cons.1 names).1
    obtain ⟨off, gone⟩ := InitImage.find?_apply_disabled kept (request.base.writeAll request.commonWrites)
    exact ⟨off, gone _ (by simp [InitImageFields.dependents]), gone _ (by simp [InitImageFields.dependents])⟩
  · have written : (Text.segments member.1, member.2) ∈ request.commonWrites :=
      List.mem_map.2 ⟨member, hm, rfl⟩
    rw [Document.get?, getAt?_effectiveBase flat beside]
    exact Document.getAt?_writeAll_of_mem apart written (Text.segments_ne_nil _) _
  · rw [getAt?_effectiveBase flat beside]
    refine Document.getAt?_writeAll_of_not_overlap (fun w hw => ?_) _
    obtain ⟨member, hm, rfl⟩ := List.mem_map.1 hw
    exact free member hm

/-- A dotted common setting goes through a number of the base, and the image takes the place of a base setting. -/
def layeredRequest : SweepRequest where
  base := [("seed", .int 7), ("strength", .str "high"), ("motion", .int 1)]
  x := { name := .x }
  y := { name := .y }
  common := [("motion.zoom", .str "0: (1)"), ("sampler", .str "euler")]
  initImage := some (.enabled "\"shots\\a.png\"" " 0.5 ")

theorem effectiveBase_layers_motion :
    (layeredRequest.effectiveBase {}).1.get? "use_init" = some (.bool true) ∧
      (layeredRequest.effectiveBase {}).1.get? "init_image" = some (.str "shots/a.png") ∧
      (∃ half, Scalar.finite? " 0.5 " = some half ∧
        (layeredRequest.effectiveBase {}).1.get? "strength" = some (.ofNumber half)) ∧
      (layeredRequest.effectiveBase {}).1.get? "motion.zoom" = some (.str "0: (1)") ∧
      (layeredRequest.effectiveBase {}).1.getAt? ["seed"] = some (.int 7) ∧
      Document.Reordered (layeredRequest.effectiveBase {}).1
        (effectiveBase { layeredRequest with common := layeredRequest.common.reverse } {}).1 := by
  have paths : layeredRequest.common.map (fun member => Text.segments member.1) = [["motion", "zoom"], ["sampler"]] := by
    decide
  have flat : ∀ member ∈ layeredRequest.common, member.2.object? = none := by
    rintro member (_ | ⟨_, _ | ⟨_, _ | _⟩⟩) <;> rfl
  obtain ⟨painted, -, common, beside, order⟩ := @effectiveBase_layers layeredRequest {}
    (by decide) (by decide) flat (by rw [paths]; simp [Overlap])
  obtain ⟨flag, ⟨inner, unquoted, path⟩, strength⟩ := painted _ _ rfl
  have ends : Text.trimChars "\"shots\\a.png\"".toList = '"' :: ("shots\\a.png".toList ++ ['"']) := by decide
  obtain rfl : inner = "shots\\a.png".toList := by
    cases unquoted with
    | quoted same => exact (List.append_cancel_right (List.cons.inj (ends.symm.trans same)).2).symm
    | bare other => exact absurd ends (other _)
  obtain ⟨half, number⟩ : ∃ half, Scalar.finite? " 0.5 " = some half := Option.isSome_iff_exists.1 (by decide)
  rw [number] at strength
  refine ⟨flag, path, ⟨half, number, strength⟩, ?_, ?_, order _ (List.reverse_perm _).symm⟩
  · exact common ("motion.zoom", .str "0: (1)") (by simp [layeredRequest]) (by decide)
  · refine beside ["seed"] (fun member hm => ?_) (by decide)
    have known : Text.segments member.1 ∈ [["motion", "zoom"], ["sampler"]] := paths ▸ List.mem_map_of_mem hm
    rcases List.mem_pair.1 known with e | e <;> simp [e, Overlap]

end SweepRequest

end SettingsSweep

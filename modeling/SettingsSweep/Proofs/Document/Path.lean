import SettingsSweep.Document.Path
import Mathlib.Data.List.Basic

/-!
Reading a document after it was written to, at paths of keys. What is written shows at its own path and at
no path that does not overlap it.
-/

set_option autoImplicit false

namespace SettingsSweep

/-- One path is the other, or leads to it. -/
def Overlap (p q : List String) : Prop := p <+: q ∨ q <+: p

namespace Overlap

theorem nil_left (p : List String) : Overlap [] p := .inl List.nil_prefix

theorem nil_right (p : List String) : Overlap p [] := .inr List.nil_prefix

theorem cons_iff {key : String} {p q : List String} :
    Overlap (key :: p) (key :: q) ↔ Overlap p q := by
  simp [Overlap]

end Overlap

namespace Text

theorem segments_ne_nil (path : String) : segments path ≠ [] := by
  simp [segments, splitOn_ne_nil]

theorem segments_of_notMem {key : String} (h : '.' ∉ key.toList) : segments key = [key] := by
  rw [segments, splitOn_of_not_mem h, List.map_singleton, String.ofList_toList]

end Text

namespace Document

def setAt : List String → Json → Document → Document
  | [], _, doc => doc
  | [key], value, doc => doc.put key value
  | key :: keys, value, doc => doc.put key (.obj (setAt keys value (doc.objectAt key)))

/-- The shortest part of a path, short of the whole, that holds something other than an object. -/
def obstacle? : List String → Document → Option (List String)
  | [], _ => none
  | [_], _ => none
  | key :: keys, doc =>
    match doc.find? key with
    | none => none
    | some (.obj members) => (obstacle? keys members).map (key :: ·)
    | some _ => some [key]

theorem obstacle?_nil_document (path : List String) : obstacle? path [] = none := by
  cases path with
  | nil => rfl
  | cons key keys => cases keys <;> rfl

def set (path : String) (value : Json) (doc : Document) : Document :=
  setAt (Text.segments path) value doc

/-- Setting a path reports the value that had to go. -/
def setWarnings (path : String) (doc : Document) : List Warning :=
  (obstacle? (Text.segments path) doc).toList.map fun keys =>
    .replacedIntermediate path (Text.ofSegments keys)

/-- The loop over a path sets the value and reports what is in the way. -/
theorem setFrom_eq (path : String) (passed keys : List String) (value : Json) (doc : Document) :
    setFrom path passed keys value doc = (doc.setAt keys value,
      (doc.obstacle? keys).toList.map fun part => .replacedIntermediate path (Text.ofSegments (passed ++ part))) := by
  induction keys generalizing passed doc with
  | nil => rfl
  | cons key keys ih =>
    cases keys with
    | nil => rfl
    | cons next keys =>
      unfold setFrom setAt obstacle?
      dsimp only
      rw [objectAt]
      cases found : doc.find? key with
      | none => simp [ih, obstacle?_nil_document]
      | some old =>
        cases old with
        | obj members => cases further : obstacle? (next :: keys) members <;> simp [ih, further]
        | _ => simp [ih, obstacle?_nil_document]

theorem setPath_eq (path : String) (value : Json) (doc : Document) :
    doc.setPath path value = (doc.set path value, doc.setWarnings path) :=
  setFrom_eq path [] (Text.segments path) value doc

theorem getAt?_nil_document (path : List String) : getAt? path [] = none := by
  cases path with
  | nil => rfl
  | cons key keys => cases keys <;> rfl

theorem getAt?_cons (key : String) {keys : List String} (h : keys ≠ []) (doc : Document) :
    doc.getAt? (key :: keys) = (doc.objectAt key).getAt? keys := by
  cases keys with
  | nil => exact absurd rfl h
  | cons next keys =>
    rw [getAt?, objectAt]
    · split
      · rfl
      · rw [getAt?_nil_document]
    · exact List.cons_ne_nil next keys

theorem getAt?_setAt_self {keys : List String} (h : keys ≠ []) (value : Json) (doc : Document) :
    (doc.setAt keys value).getAt? keys = some value := by
  induction keys generalizing doc with
  | nil => exact absurd rfl h
  | cons key keys ih =>
    cases keys with
    | nil => simp [setAt, getAt?, Dict.find?_put_self]
    | cons next keys =>
      simp only [setAt, getAt?, Dict.find?_put_self]
      exact ih (by simp) _

theorem setAt_cons (key : String) {keys : List String} (h : keys ≠ []) (value : Json)
    (doc : Document) :
    doc.setAt (key :: keys) value = doc.put key (.obj ((doc.objectAt key).setAt keys value)) := by
  cases keys with
  | nil => exact absurd rfl h
  | cons next keys => rfl

theorem objectAt_put_self (key : String) (members : Document) (doc : Document) :
    objectAt key (doc.put key (.obj members)) = members := by
  simp [objectAt, Dict.find?_put_self]

theorem getAt?_congr {key : String} {doc other : Document}
    (h : doc.find? key = other.find? key) (keys : List String) :
    doc.getAt? (key :: keys) = other.getAt? (key :: keys) := by
  cases keys with
  | nil => exact h
  | cons next keys =>
    have ne := List.cons_ne_nil next keys
    rw [getAt?_cons key ne, getAt?_cons key ne, objectAt, objectAt, h]

theorem getAt?_put_of_head_ne {key : String} {path : List String} (h : path.head? ≠ some key)
    (value : Json) (doc : Document) : getAt? path (doc.put key value) = doc.getAt? path := by
  cases path with
  | nil => rfl
  | cons first keys =>
    have ne : first ≠ key := fun e => h (e ▸ rfl)
    exact getAt?_congr (Dict.find?_put_of_ne ne value doc) keys

theorem getAt?_of_find?_eq_none {key : String} {doc : Document} (h : doc.find? key = none)
    {path : List String} (head : path.head? = some key) : doc.getAt? path = none := by
  cases path with
  | nil => rfl
  | cons first keys =>
    obtain rfl := Option.some.inj head
    cases keys with
    | nil => exact h
    | cons next keys =>
      unfold getAt?
      rw [h]

theorem find?_setAt_of_head_ne {key : String} {path : List String} (h : path.head? ≠ some key)
    (value : Json) (doc : Document) : (doc.setAt path value).find? key = doc.find? key := by
  cases path with
  | nil => rfl
  | cons first keys =>
    have ne : key ≠ first := fun e => h (e ▸ rfl)
    cases keys with
    | nil => exact Dict.find?_put_of_ne ne value doc
    | cons next keys => exact Dict.find?_put_of_ne ne _ doc

theorem getAt?_setAt_of_not_overlap {path other : List String} (h : ¬ Overlap other path)
    (value : Json) (doc : Document) : (doc.setAt path value).getAt? other = doc.getAt? other := by
  induction path generalizing other doc with
  | nil => exact absurd (Overlap.nil_right other) h
  | cons key keys ih =>
    cases other with
    | nil => exact absurd (Overlap.nil_left _) h
    | cons first rest =>
      by_cases hk : first = key
      · subst hk
        -- Both paths go on below the key, or one would lead to the other.
        rw [Overlap.cons_iff] at h
        have hr : rest ≠ [] := fun e => h (e ▸ Overlap.nil_left keys)
        have hs : keys ≠ [] := fun e => h (e ▸ Overlap.nil_right rest)
        rw [setAt_cons _ hs, getAt?_cons _ hr, objectAt_put_self, ih h, getAt?_cons _ hr]
      · refine getAt?_congr (find?_setAt_of_head_ne ?_ value doc) rest
        simpa using Ne.symm hk

def writeAll (doc : Document) (writes : List (List String × Json)) : Document :=
  writes.foldl (fun d w => d.setAt w.1 w.2) doc

theorem writeAll_cons (path : List String) (value : Json) (writes : List (List String × Json))
    (doc : Document) :
    doc.writeAll ((path, value) :: writes) = (doc.setAt path value).writeAll writes := rfl

theorem getAt?_writeAll_of_not_overlap {path : List String} {writes : List (List String × Json)}
    (h : ∀ w ∈ writes, ¬ Overlap path w.1) (doc : Document) :
    (doc.writeAll writes).getAt? path = doc.getAt? path := by
  induction writes generalizing doc with
  | nil => rfl
  | cons w writes ih =>
    rw [writeAll_cons, ih fun u hu => h u (List.mem_cons_of_mem _ hu),
      getAt?_setAt_of_not_overlap (h w List.mem_cons_self)]

theorem getAt?_writeAll_of_mem {writes : List (List String × Json)}
    (apart : (writes.map Prod.fst).Pairwise fun p q => ¬ Overlap p q)
    {path : List String} {value : Json} (hw : (path, value) ∈ writes) (hn : path ≠ [])
    (doc : Document) : (doc.writeAll writes).getAt? path = some value := by
  induction writes generalizing doc with
  | nil => exact absurd hw List.not_mem_nil
  | cons u writes ih =>
    obtain ⟨beside, apart⟩ := List.pairwise_cons.1 apart
    rw [writeAll_cons]
    rcases List.mem_cons.1 hw with rfl | hw
    · have later : ∀ v ∈ writes, ¬ Overlap path v.1 :=
        fun v hv => beside v.1 (List.mem_map_of_mem hv)
      rw [getAt?_writeAll_of_not_overlap later]
      exact getAt?_setAt_self hn value doc
    · exact ih apart hw _

end Document

end SettingsSweep

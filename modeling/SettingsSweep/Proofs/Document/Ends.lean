import SettingsSweep.Proofs.Document.Overlay

/-!
The ends of a document, at the paths that its keys spell, and how an end is laid over another document. Ends below one
path are laid into the object at that path.
-/

set_option autoImplicit false

namespace SettingsSweep

theorem Json.plainKeys_of_object?_eq_none {value : Json} (h : value.object? = none) :
    value.PlainKeys := by
  cases value with
  | obj members => cases h
  | _ => trivial

namespace Document

def under (path : List String) (e : List String × Json) : List String × Json := (path ++ e.1, e.2)

mutual

/-- The ends of a document in its order: the values that are no objects and the empty objects, each at the path that the
    keys above it spell, every dot a step. -/
def ends : List (String × Json) → List (List String × Json)
  | [] => []
  | (key, value) :: members => (endsOf value).map (under (Text.segments key)) ++ ends members

def endsOf : Json → List (List String × Json)
  | .obj members => if members.isEmpty then [([], .obj [])] else ends members
  | value => [([], value)]

end

def memberEnds (key : String) (value : Json) : List (List String × Json) :=
  (endsOf value).map (under (Text.segments key))

theorem endsOf_obj {members : Document} (h : members ≠ []) : endsOf (.obj members) = ends members := by
  rw [endsOf, if_neg (by simpa using h)]

theorem mem_endsOf_of_mem_ends {members : Document} {e : List String × Json}
    (h : e ∈ ends members) : e ∈ endsOf (.obj members) := by
  rwa [endsOf_obj]
  rintro rfl
  cases h

theorem ends_cons (key : String) (value : Json) (members : Document) :
    ends ((key, value) :: members) = memberEnds key value ++ ends members := by
  rw [ends, memberEnds]

theorem ends_eq_flatMap (members : Document) :
    ends members = members.flatMap fun m => memberEnds m.1 m.2 := by
  induction members with
  | nil => rfl
  | cons member members ih => rw [ends_cons, ih, List.flatMap_cons]

theorem mem_ends {members : Document} {e : List String × Json} :
    e ∈ ends members ↔ ∃ m ∈ members, e ∈ memberEnds m.1 m.2 := by
  rw [ends_eq_flatMap, List.mem_flatMap]

theorem under_mem_memberEnds {key : String} {value : Json} {f : List String × Json}
    (h : f ∈ endsOf value) : under (Text.segments key) f ∈ memberEnds key value :=
  List.mem_map_of_mem h

mutual

theorem ends_ne_nil : ∀ members : List (String × Json), members ≠ [] → ends members ≠ []
  | [], h => absurd rfl h
  | (key, value) :: members, _ => by
    simp [ends, endsOf_ne_nil value]

theorem endsOf_ne_nil : ∀ value : Json, endsOf value ≠ []
  | .obj members => by
    by_cases h : members = []
    · rw [h]
      exact List.cons_ne_nil _ _
    · rw [endsOf_obj h]
      exact ends_ne_nil members h
  | .null | .bool _ | .int _ | .real _ | .str _ | .arr _ => List.cons_ne_nil _ _

end

/-- What ends have in common: a path of keys without dots, and a value with nothing below it. -/
structure IsEnd (e : List String × Json) : Prop where
  noDots : ∀ key ∈ e.1, '.' ∉ key.toList
  bare : e.2.object? = none ∨ e.2 = .obj []
  unique : e.2.UniqueKeys

namespace IsEnd

variable {e : List String × Json}

theorem under {path : List String} (plain : ∀ key ∈ path, '.' ∉ key.toList) (h : IsEnd e) :
    IsEnd (under path e) where
  noDots := fun key hk => (List.mem_append.1 hk).elim (plain key) (h.noDots key)
  bare := h.bare
  unique := h.unique

theorem plain (h : IsEnd e) : e.2.PlainKeys := by
  rcases h.bare with scalar | empty
  · exact Json.plainKeys_of_object?_eq_none scalar
  · rw [empty]
    trivial

end IsEnd

mutual

theorem isEnd_of_mem_ends : ∀ members : List (String × Json), Json.UniqueKeysMembers members →
    ∀ e ∈ ends members, IsEnd e
  | [], _, e, he => absurd he List.not_mem_nil
  | (key, value) :: members, unique, e, he => by
    rcases List.mem_append.1 (ends_cons key value members ▸ he) with he | he
    · obtain ⟨f, hf, rfl⟩ := List.mem_map.1 he
      exact (isEnd_of_mem_endsOf value unique.1 f hf).under
        fun part hp => Text.dot_notMem_of_mem_segments hp
    · exact isEnd_of_mem_ends members unique.2 e he

theorem isEnd_of_mem_endsOf : ∀ value : Json, value.UniqueKeys → ∀ e ∈ endsOf value, IsEnd e
  | .obj members, unique, e, he => by
    by_cases h : members = []
    · subst h
      rw [List.mem_singleton.1 he]
      exact ⟨by simp, .inr rfl, unique⟩
    · rw [endsOf_obj h] at he
      exact isEnd_of_mem_ends members unique.2 e he
  | .null, unique, e, he | .bool _, unique, e, he | .int _, unique, e, he
  | .real _, unique, e, he | .str _, unique, e, he | .arr _, unique, e, he => by
    rw [List.mem_singleton.1 he]
    exact ⟨by simp, .inl rfl, unique⟩

end

theorem ne_nil_of_mem_memberEnds {key : String} {value : Json} {e : List String × Json}
    (h : e ∈ memberEnds key value) : e.1 ≠ [] := by
  obtain ⟨f, -, rfl⟩ := List.mem_map.1 h
  exact List.append_ne_nil_of_left_ne_nil (Text.segments_ne_nil key) f.1

theorem ne_nil_of_mem_ends {members : Document} {e : List String × Json} (h : e ∈ ends members) :
    e.1 ≠ [] := by
  obtain ⟨m, -, he⟩ := mem_ends.1 h
  exact ne_nil_of_mem_memberEnds he

theorem isEnd_of_mem_memberEnds {key : String} {value : Json} (unique : value.UniqueKeys)
    {e : List String × Json} (h : e ∈ memberEnds key value) : IsEnd e := by
  obtain ⟨f, hf, rfl⟩ := List.mem_map.1 h
  exact (isEnd_of_mem_endsOf value unique f hf).under fun part hp => Text.dot_notMem_of_mem_segments hp

theorem areEnds_of_uniqueKeys {members : Document} (unique : (Json.obj members).UniqueKeys) :
    ∀ e ∈ ends members, IsEnd e ∧ e.1 ≠ [] :=
  fun e he => ⟨isEnd_of_mem_ends members unique.2 e he, ne_nil_of_mem_ends he⟩

/-- A value put at a path as a merge puts it: an object goes into the object that is there. -/
def lay (path : List String) (value : Json) (doc : Document) : Document :=
  doc.setAt path (overlaid (doc.getAt? path) value)

def layAll (doc : Document) (writes : List (List String × Json)) : Document :=
  writes.foldl (fun d w => d.lay w.1 w.2) doc

def membersIn (path : List String) (doc : Document) : Document :=
  ((doc.getAt? path).bind Json.object?).getD []

theorem layAll_append (writes more : List (List String × Json)) (doc : Document) :
    doc.layAll (writes ++ more) = (doc.layAll writes).layAll more := List.foldl_append

theorem lay_of_not_both {path : List String} {value : Json} {doc : Document}
    (h : value.object? = none ∨ (doc.getAt? path).bind Json.object? = none) :
    doc.lay path value = doc.setAt path value := by
  refine congrArg (setAt path · doc) (overlaid_of_not_both (h.imp_right fun none existing there => ?_))
  rw [there] at none
  cases none

theorem lay_cons (key : String) {keys : List String} (h : keys ≠ []) (value : Json) (doc : Document) :
    doc.lay (key :: keys) value = doc.put key (.obj ((doc.objectAt key).lay keys value)) := by
  rw [lay, setAt_cons key h, getAt?_cons key h]
  rfl

theorem objectAt_of_find? {key : String} {doc existing : Document}
    (h : doc.find? key = some (.obj existing)) : doc.objectAt key = existing := by
  rw [objectAt, h]

theorem objectAt_eq_nil {key : String} {doc : Document}
    (h : ∀ existing, doc.find? key ≠ some (.obj existing)) : doc.objectAt key = [] := by
  unfold objectAt
  split
  · next existing found => exact absurd found (h existing)
  · rfl

theorem membersIn_cons (key : String) {keys : List String} (h : keys ≠ []) (doc : Document) :
    doc.membersIn (key :: keys) = (doc.objectAt key).membersIn keys := by
  rw [membersIn, getAt?_cons key h]
  rfl

theorem membersIn_singleton (key : String) (doc : Document) :
    doc.membersIn [key] = doc.objectAt key := by
  rw [membersIn, getAt?, objectAt]
  cases doc.find? key with
  | none => rfl
  | some value => cases value <;> rfl

section

variable {writes : List (List String × Json)} (below : ∀ e ∈ writes, e.1 ≠ [])

include below

theorem layAll_under_singleton (hw : writes ≠ []) (key : String) (doc : Document) :
    doc.layAll (writes.map (under [key])) = doc.put key (.obj ((doc.objectAt key).layAll writes)) := by
  induction writes generalizing doc with
  | nil => exact absurd rfl hw
  | cons e writes ih =>
    obtain ⟨ne, below⟩ := List.forall_mem_cons.1 below
    have first : doc.lay (key :: e.1) e.2 = doc.put key (.obj ((doc.objectAt key).lay e.1 e.2)) :=
      lay_cons key ne e.2 doc
    by_cases last : writes = []
    · subst last
      exact first
    · -- The first end makes an object at the key, and all others go into it.
      calc doc.layAll ((e :: writes).map (under [key]))
          = (doc.lay (key :: e.1) e.2).layAll (writes.map (under [key])) := rfl
        _ = (doc.put key (.obj ((doc.objectAt key).lay e.1 e.2))).put key
              (.obj (((doc.objectAt key).lay e.1 e.2).layAll writes)) := by
            rw [first, ih below last, objectAt_put_self]
        _ = doc.put key (.obj ((doc.objectAt key).layAll (e :: writes))) := Dict.put_put key _ _ doc

/-- To lay down ends below one path is to work on the object at that path. -/
theorem layAll_under {path : List String} (hp : path ≠ []) (hw : writes ≠ []) (doc : Document) :
    doc.layAll (writes.map (under path)) =
      doc.setAt path (.obj ((doc.membersIn path).layAll writes)) := by
  induction path generalizing doc writes with
  | nil => exact absurd rfl hp
  | cons key keys ih =>
    by_cases last : keys = []
    · subst last
      rw [layAll_under_singleton below hw, membersIn_singleton]
      rfl
    · have split : writes.map (under (key :: keys)) = (writes.map (under keys)).map (under [key]) := by
        rw [List.map_map]
        rfl
      have further : ∀ e ∈ writes.map (under keys), e.1 ≠ [] :=
        List.forall_mem_map.2 fun e _ => List.append_ne_nil_of_left_ne_nil last e.1
      rw [split, layAll_under_singleton further (by simpa using hw), ih below last hw,
        setAt_cons key last, membersIn_cons key last]

end

end Document

end SettingsSweep

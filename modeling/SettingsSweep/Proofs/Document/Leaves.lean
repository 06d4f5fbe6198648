import SettingsSweep.Document.Parameters
import SettingsSweep.Proofs.Document.Path
import Mathlib.Data.List.Nodup

/-!
The leaves of a document, each with the keys that lead to it. A path leads to a leaf if it can be read there, does not
go below the prompts, and ends at a value that is no object or at the prompts. No path leads to two leaves.
-/

set_option autoImplicit false

namespace SettingsSweep

namespace Json

theorem uniqueKeysMembers_iff {members : Document} :
    UniqueKeysMembers members ↔ ∀ member ∈ members, member.2.UniqueKeys := by
  induction members with
  | nil => simp [UniqueKeysMembers]
  | cons member members ih =>
    rw [UniqueKeysMembers, ih, List.forall_mem_cons]

theorem uniqueKeys_obj_iff {members : Document} : (obj members).UniqueKeys ↔
    members.keys.Nodup ∧ ∀ member ∈ members, member.2.UniqueKeys := by
  rw [UniqueKeys, uniqueKeysMembers_iff]
  rfl

def isScalar : Json → Bool
  | .arr _ | .obj _ => false
  | _ => true

theorem object?_of_isScalar {value : Json} (h : value.isScalar = true) : value.object? = none := by
  cases value with
  | obj members => cases h
  | _ => rfl

theorem uniqueKeys_of_isScalar {value : Json} (h : value.isScalar = true) : value.UniqueKeys := by
  cases value with
  | obj members => cases h
  | arr items => cases h
  | _ => trivial

end Json

namespace Dict

variable {α : Type}

theorem mem_iff_find? {key : String} {value : α} {d : Dict α} (unique : d.keys.Nodup) :
    (key, value) ∈ d ↔ d.find? key = some value := by
  refine ⟨fun h => ?_, mem_of_find?⟩
  induction d with
  | nil => cases h
  | cons entry d ih =>
    obtain ⟨k, v⟩ := entry
    obtain ⟨fresh, unique⟩ := List.nodup_cons.1 unique
    rw [find?]
    rcases List.mem_cons.1 h with same | h
    · cases same
      rw [if_pos rfl]
    · have ne : k ≠ key := fun e => fresh (e ▸ List.mem_map.2 ⟨_, h, rfl⟩)
      rw [if_neg ne]
      exact ih unique h

theorem mem_put {key : String} {value : α} {d : Dict α} {entry : String × α}
    (h : entry ∈ d.put key value) : entry = (key, value) ∨ entry ∈ d := by
  induction d with
  | nil => exact .inl (List.mem_singleton.1 h)
  | cons first d ih =>
    obtain ⟨k, v⟩ := first
    rw [put] at h
    split at h
    · next same =>
      rcases List.mem_cons.1 h with rfl | h
      · exact .inl (by rw [same])
      · exact .inr (List.mem_cons_of_mem _ h)
    · rcases List.mem_cons.1 h with rfl | h
      · exact .inr List.mem_cons_self
      · exact (ih h).imp_right (List.mem_cons_of_mem _)

end Dict

namespace Document

variable {doc : Document}

theorem uniqueKeys_put {key : String} {value : Json} (unique : (Json.obj doc).UniqueKeys)
    (h : value.UniqueKeys) : (Json.obj (doc.put key value)).UniqueKeys := by
  obtain ⟨nodup, below⟩ := Json.uniqueKeys_obj_iff.1 unique
  refine Json.uniqueKeys_obj_iff.2 ⟨Dict.nodup_keys_put nodup, fun member hm => ?_⟩
  rcases Dict.mem_put hm with rfl | hm
  · exact h
  · exact below member hm

theorem uniqueKeys_objectAt (unique : (Json.obj doc).UniqueKeys) (key : String) :
    (Json.obj (doc.objectAt key)).UniqueKeys := by
  unfold objectAt
  split
  · next members found => exact (Json.uniqueKeys_obj_iff.1 unique).2 _ (Dict.mem_of_find? found)
  · exact Json.uniqueKeys_obj_iff.2 ⟨List.nodup_nil, by simp⟩

theorem uniqueKeys_setAt {path : List String} {value : Json} (unique : (Json.obj doc).UniqueKeys)
    (h : value.UniqueKeys) : (Json.obj (doc.setAt path value)).UniqueKeys := by
  induction path generalizing doc with
  | nil => exact unique
  | cons key keys ih =>
    by_cases last : keys = []
    · rw [last]
      exact uniqueKeys_put unique h
    · rw [setAt_cons key last]
      exact uniqueKeys_put unique (ih (uniqueKeys_objectAt unique key))

theorem getAt?_cons_eq_some {key : String} {keys : List String} (h : keys ≠ []) {value : Json} :
    doc.getAt? (key :: keys) = some value ↔
      ∃ members, doc.find? key = some (.obj members) ∧ getAt? keys members = some value := by
  rw [getAt?_cons key h, objectAt]
  split
  · next members found => simp [found]
  · next none =>
    rw [getAt?_nil_document]
    simp only [reduceCtorEq, false_iff]
    rintro ⟨members, found, -⟩
    exact none members found

theorem getAt?_append {path rest : List String} (hp : path ≠ []) (hr : rest ≠ []) {value : Json} :
    doc.getAt? (path ++ rest) = some value ↔
      ∃ members, doc.getAt? path = some (.obj members) ∧ getAt? rest members = some value := by
  induction path generalizing doc with
  | nil => exact absurd rfl hp
  | cons key keys ih =>
    have more : keys ++ rest ≠ [] := fun e => hr (List.append_eq_nil_iff.1 e).2
    rw [List.cons_append, getAt?_cons_eq_some more]
    by_cases last : keys = []
    · rw [last]
      rfl
    · simp only [ih last, getAt?_cons_eq_some last]
      constructor
      · rintro ⟨above, found, members, below, read⟩
        exact ⟨members, ⟨above, found, below⟩, read⟩
      · rintro ⟨members, ⟨above, found, below⟩, read⟩
        exact ⟨above, found, members, below, read⟩

theorem sizeOf_lt_of_find? {key : String} {value : Json} (h : doc.find? key = some value) :
    sizeOf value < sizeOf (Json.obj doc) := by
  have inside := List.sizeOf_lt_of_mem (Dict.mem_of_find? h)
  rw [Json.obj.sizeOf_spec]
  rw [Prod.mk.sizeOf_spec] at inside
  omega

theorem sizeOf_lt_of_getAt? {path : List String} {value : Json} (h : doc.getAt? path = some value) :
    sizeOf value < sizeOf (Json.obj doc) := by
  induction path generalizing doc with
  | nil => cases h
  | cons key keys ih =>
    by_cases last : keys = []
    · rw [last] at h
      exact sizeOf_lt_of_find? h
    · obtain ⟨members, found, below⟩ := (getAt?_cons_eq_some last).1 h
      exact Nat.lt_trans (ih below) (sizeOf_lt_of_find? found)

/-- No value is found again below itself. -/
theorem eq_nil_of_getAt?_append {path rest : List String} (hp : path ≠ []) {value : Json}
    (above : doc.getAt? path = some value) (below : doc.getAt? (path ++ rest) = some value) :
    rest = [] := by
  by_contra hr
  obtain ⟨members, found, read⟩ := (getAt?_append hp hr).1 below
  obtain rfl := Option.some.inj (above.symm.trans found)
  exact absurd (sizeOf_lt_of_getAt? read) (Nat.lt_irrefl _)

mutual

/-- The leaves with the keys that lead to them, in the order of the document. -/
def leafPathsOf (promptsField : String) : List (String × Json) → List (List String × Json)
  | [] => []
  | (key, value) :: members => leafPathsAt promptsField key value ++ leafPathsOf promptsField members

def leafPathsAt (promptsField key : String) : Json → List (List String × Json)
  | .obj members =>
    if key = promptsField then [([key], .obj members)]
    else (leafPathsOf promptsField members).map fun leaf => (key :: leaf.1, leaf.2)
  | value => [([key], value)]

end

def leafPaths (catalog : Catalog) (doc : Document) : List (List String × Json) :=
  leafPathsOf catalog.promptsField doc

def joinKeys (keys : List String) : String := keys.foldl joinPath ""

mutual

theorem leavesOf_eq (promptsField parent : String) : ∀ members : List (String × Json),
    leavesOf promptsField parent members = (leafPathsOf promptsField members).map fun leaf =>
      (leaf.1.foldl joinPath parent, leaf.2)
  | [] => rfl
  | (key, value) :: members => by
    rw [leavesOf, leafPathsOf, List.map_append, leavesOf_eq, leavesAt_eq]

theorem leavesAt_eq (promptsField key parent : String) : ∀ value : Json,
    leavesAt promptsField key (joinPath parent key) value =
      (leafPathsAt promptsField key value).map fun leaf => (leaf.1.foldl joinPath parent, leaf.2)
  | .obj members => by
    rw [leavesAt, leafPathsAt]
    split
    · rfl
    · rw [leavesOf_eq, List.map_map]
      rfl
  | .null | .bool _ | .int _ | .real _ | .str _ | .arr _ => rfl

end

theorem leaves_eq (catalog : Catalog) (doc : Document) :
    doc.leaves catalog = (doc.leafPaths catalog).map fun leaf => (joinKeys leaf.1, leaf.2) :=
  leavesOf_eq catalog.promptsField "" doc

theorem mem_leafPathsOf {promptsField : String} {members : Document} {leaf : List String × Json} :
    leaf ∈ leafPathsOf promptsField members ↔
      ∃ key value, (key, value) ∈ members ∧ leaf ∈ leafPathsAt promptsField key value := by
  induction members with
  | nil => simp [leafPathsOf]
  | cons member members ih =>
    obtain ⟨k, v⟩ := member
    rw [leafPathsOf, List.mem_append, ih]
    constructor
    · rintro (h | ⟨key, value, hm, h⟩)
      · exact ⟨k, v, List.mem_cons_self, h⟩
      · exact ⟨key, value, List.mem_cons_of_mem _ hm, h⟩
    · rintro ⟨key, value, hm, h⟩
      rcases List.mem_cons.1 hm with same | hm
      · cases same
        exact .inl h
      · exact .inr ⟨key, value, hm, h⟩

theorem head?_of_mem_leafPathsAt {promptsField key : String} {value : Json}
    {leaf : List String × Json} (h : leaf ∈ leafPathsAt promptsField key value) :
    leaf.1.head? = some key := by
  cases value with
  | obj members =>
    rw [leafPathsAt] at h
    split at h
    · rw [List.mem_singleton.1 h]
      rfl
    · obtain ⟨below, -, rfl⟩ := List.mem_map.1 h
      rfl
  | _ =>
    rw [List.mem_singleton.1 h]
    rfl

theorem ne_nil_of_mem_leafPathsOf {promptsField : String} {members : Document}
    {leaf : List String × Json} (h : leaf ∈ leafPathsOf promptsField members) : leaf.1 ≠ [] := by
  obtain ⟨key, value, -, h⟩ := mem_leafPathsOf.1 h
  intro none
  have first := head?_of_mem_leafPathsAt h
  rw [none] at first
  cases first

theorem mem_leafPathsAt_singleton {promptsField key : String} {found value : Json} :
    ([key], value) ∈ leafPathsAt promptsField key found ↔
      found = value ∧ (value.object? = none ∨ key = promptsField) := by
  cases found with
  | obj members =>
    rw [leafPathsAt]
    split
    · next prompts =>
      rw [List.mem_singleton, Prod.mk.injEq]
      constructor
      · rintro ⟨-, rfl⟩
        exact ⟨rfl, .inr prompts⟩
      · rintro ⟨rfl, -⟩
        exact ⟨rfl, rfl⟩
    · next ne =>
      constructor
      · intro h
        obtain ⟨leaf, hl, same⟩ := List.mem_map.1 h
        exact absurd (List.cons.inj (congrArg Prod.fst same)).2 (ne_nil_of_mem_leafPathsOf hl)
      · rintro ⟨rfl, plain | prompts⟩
        · cases plain
        · exact absurd prompts ne
  | _ =>
    constructor
    · intro h
      cases List.mem_singleton.1 h
      exact ⟨rfl, .inl rfl⟩
    · rintro ⟨rfl, -⟩
      exact List.mem_singleton.2 rfl

theorem mem_leafPathsAt_cons {promptsField key : String} {keys : List String} (h : keys ≠ [])
    {found value : Json} : (key :: keys, value) ∈ leafPathsAt promptsField key found ↔
      key ≠ promptsField ∧ ∃ members, found = .obj members ∧
        (keys, value) ∈ leafPathsOf promptsField members := by
  cases found with
  | obj members =>
    rw [leafPathsAt]
    split
    · next prompts => simp [prompts, h]
    · next ne =>
      rw [List.mem_map]
      constructor
      · rintro ⟨leaf, hl, same⟩
        cases same
        exact ⟨ne, members, rfl, hl⟩
      · rintro ⟨-, members, ⟨⟩, hl⟩
        exact ⟨_, hl, rfl⟩
  | _ => simp [leafPathsAt, h]

structure IsLeaf (promptsField : String) (keys : List String) (value : Json) : Prop where
  above : promptsField ∉ keys.dropLast
  last : value.object? = none ∨ keys.getLast? = some promptsField

theorem isLeaf_singleton {promptsField key : String} {value : Json} :
    IsLeaf promptsField [key] value ↔ value.object? = none ∨ key = promptsField := by
  constructor
  · exact fun h => h.last.imp_right Option.some.inj
  · exact fun h => ⟨List.not_mem_nil, h.imp_right (congrArg some)⟩

theorem isLeaf_cons {promptsField key : String} {keys : List String} (h : keys ≠ []) {value : Json} :
    IsLeaf promptsField (key :: keys) value ↔ key ≠ promptsField ∧ IsLeaf promptsField keys value := by
  have above : (key :: keys).dropLast = key :: keys.dropLast := List.dropLast_cons_of_ne_nil h
  have last : (key :: keys).getLast? = keys.getLast? := by
    cases keys with
    | nil => exact absurd rfl h
    | cons next keys => rfl
  constructor
  · rintro ⟨ha, hl⟩
    rw [above, List.mem_cons, not_or] at ha
    exact ⟨Ne.symm ha.1, ha.2, last ▸ hl⟩
  · rintro ⟨ne, ha, hl⟩
    refine ⟨?_, last ▸ hl⟩
    rw [above, List.mem_cons, not_or]
    exact ⟨Ne.symm ne, ha⟩

/-- A path leads to a leaf exactly if a leaf is read there. -/
theorem mem_leafPathsOf_iff {promptsField : String} (unique : (Json.obj doc).UniqueKeys)
    {keys : List String} {value : Json} : (keys, value) ∈ leafPathsOf promptsField doc ↔
      doc.getAt? keys = some value ∧ IsLeaf promptsField keys value := by
  induction keys generalizing doc with
  | nil =>
    constructor
    · exact fun h => absurd rfl (ne_nil_of_mem_leafPathsOf h)
    · rintro ⟨⟨⟩, -⟩
  | cons key keys ih =>
    obtain ⟨nodup, below⟩ := Json.uniqueKeys_obj_iff.1 unique
    -- The key is found once, so the path goes through the value that is read.
    have here : (key :: keys, value) ∈ leafPathsOf promptsField doc ↔
        ∃ found, doc.find? key = some found ∧
          (key :: keys, value) ∈ leafPathsAt promptsField key found := by
      rw [mem_leafPathsOf]
      constructor
      · rintro ⟨first, found, hm, h⟩
        obtain rfl := Option.some.inj (head?_of_mem_leafPathsAt h)
        exact ⟨found, (Dict.mem_iff_find? nodup).1 hm, h⟩
      · rintro ⟨found, hf, h⟩
        exact ⟨key, found, (Dict.mem_iff_find? nodup).2 hf, h⟩
    rw [here]
    by_cases last : keys = []
    · subst last
      simp only [mem_leafPathsAt_singleton, isLeaf_singleton]
      constructor
      · rintro ⟨found, hf, rfl, leaf⟩
        exact ⟨hf, leaf⟩
      · rintro ⟨hf, leaf⟩
        exact ⟨value, hf, rfl, leaf⟩
    · simp only [mem_leafPathsAt_cons last, isLeaf_cons last, getAt?_cons_eq_some last]
      constructor
      · rintro ⟨found, hf, ne, members, rfl, h⟩
        obtain ⟨read, leaf⟩ := (ih (below _ (Dict.mem_of_find? hf))).1 h
        exact ⟨⟨members, hf, read⟩, ne, leaf⟩
      · rintro ⟨⟨members, hf, read⟩, ne, leaf⟩
        have h := (ih (below _ (Dict.mem_of_find? hf))).2 ⟨read, leaf⟩
        exact ⟨_, hf, ne, members, rfl, h⟩

mutual

theorem nodup_leafPathsOf (promptsField : String) : ∀ members : List (String × Json),
    (Json.obj members).UniqueKeys → ((leafPathsOf promptsField members).map Prod.fst).Nodup
  | [], _ => List.nodup_nil
  | (key, value) :: members, unique => by
    obtain ⟨nodup, below⟩ := Json.uniqueKeys_obj_iff.1 unique
    obtain ⟨fresh, nodup⟩ := List.nodup_cons.1 nodup
    have rest : (Json.obj members).UniqueKeys := Json.uniqueKeys_obj_iff.2
      ⟨nodup, fun member hm => below member (List.mem_cons_of_mem _ hm)⟩
    rw [leafPathsOf, List.map_append]
    refine List.Nodup.append (nodup_leafPathsAt promptsField key value (below _ List.mem_cons_self))
      (nodup_leafPathsOf promptsField members rest) ?_
    -- Paths from two members differ in their first key.
    intro path here there
    obtain ⟨leaf, hl, rfl⟩ := List.mem_map.1 here
    obtain ⟨other, ho, same⟩ := List.mem_map.1 there
    obtain ⟨k, v, hm, ho⟩ := mem_leafPathsOf.1 ho
    have first := head?_of_mem_leafPathsAt hl
    rw [← same, head?_of_mem_leafPathsAt ho] at first
    obtain rfl := Option.some.inj first
    exact fresh (List.mem_map.2 ⟨_, hm, rfl⟩)

theorem nodup_leafPathsAt (promptsField key : String) : ∀ value : Json, value.UniqueKeys →
    ((leafPathsAt promptsField key value).map Prod.fst).Nodup
  | .obj members, unique => by
    rw [leafPathsAt]
    split
    · exact List.nodup_singleton _
    · have below := nodup_leafPathsOf promptsField members unique
      have keys : ((leafPathsOf promptsField members).map fun leaf => (key :: leaf.1, leaf.2)).map
          Prod.fst = ((leafPathsOf promptsField members).map Prod.fst).map (key :: ·) := by
        rw [List.map_map, List.map_map]
        rfl
      rw [keys]
      exact below.map fun p q e => (List.cons.inj e).2
  | .null, _ | .bool _, _ | .int _, _ | .real _, _ | .str _, _ | .arr _, _ => List.nodup_singleton _

end

end Document

end SettingsSweep

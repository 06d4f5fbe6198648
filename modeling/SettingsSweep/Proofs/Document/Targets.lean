import SettingsSweep.Proofs.Document.Leaves

/-!
Which names of a listing can be written to. A name is split into keys again before it is used, so a listing keeps its
word for a document exactly if every leaf has a name that splits into the keys that lead to it.
-/

set_option autoImplicit false

namespace SettingsSweep

namespace Text

theorem splitOn_joinWith {sep : Char} {pieces : List (List Char)} (ne : pieces ≠ [])
    (plain : ∀ piece ∈ pieces, sep ∉ piece) : splitOn sep (joinWith sep pieces) = pieces := by
  induction pieces with
  | nil => exact absurd rfl ne
  | cons piece pieces ih =>
    have first := splitOn_of_not_mem (plain piece List.mem_cons_self)
    by_cases last : pieces = []
    · rw [last]
      exact first
    · rw [joinWith_cons sep piece last, splitOn_append, first,
        ih last fun p hp => plain p (List.mem_cons_of_mem _ hp)]
      rfl

theorem segments_ofSegments {keys : List String} (ne : keys ≠ [])
    (plain : ∀ key ∈ keys, '.' ∉ key.toList) : segments (ofSegments keys) = keys := by
  have pieces : ∀ piece ∈ keys.map String.toList, '.' ∉ piece := List.forall_mem_map.2 plain
  rw [segments, ofSegments, String.toList_ofList, splitOn_joinWith (by simpa using ne) pieces,
    List.map_map]
  simp

theorem dot_notMem_of_mem_segments {path key : String} (h : key ∈ segments path) :
    '.' ∉ key.toList := by
  obtain ⟨piece, hp, rfl⟩ := List.mem_map.1 h
  rw [String.toList_ofList]
  exact not_mem_of_mem_splitOn hp

end Text

namespace Document

variable {catalog : Catalog} {doc : Document}

/-- No key has a dot, and an empty key does not come first unless it is the only one. -/
structure PlainPath (keys : List String) : Prop where
  noDot : ∀ key ∈ keys, '.' ∉ key.toList
  first : keys.head? = some "" → keys.length = 1

theorem foldl_joinPath {parent : String} (ne : parent ≠ "") (keys : List String) :
    keys.foldl joinPath parent = Text.ofSegments (parent :: keys) := by
  induction keys generalizing parent with
  | nil => simp [Text.ofSegments, Text.joinWith]
  | cons key keys ih =>
    have joined : joinPath parent key = parent ++ "." ++ key := if_neg ne
    have ne' : parent ++ "." ++ key ≠ "" := by simp
    rw [List.foldl_cons, joined, ih ne', Text.ofSegments, Text.ofSegments]
    cases keys <;> simp [Text.joinWith]

theorem joinKeys_of_first {key : String} (ne : key ≠ "") (keys : List String) :
    joinKeys (key :: keys) = Text.ofSegments (key :: keys) := foldl_joinPath ne keys

/-- An empty first key leaves no trace. -/
theorem joinKeys_empty (keys : List String) : joinKeys ("" :: keys) = joinKeys keys := rfl

theorem length_segments_joinKeys_le {keys : List String} (ne : keys ≠ [])
    (noDot : ∀ key ∈ keys, '.' ∉ key.toList) :
    (Text.segments (joinKeys keys)).length ≤ keys.length := by
  induction keys with
  | nil => exact absurd rfl ne
  | cons key keys ih =>
    by_cases empty : key = ""
    · subst empty
      rw [joinKeys_empty]
      by_cases last : keys = []
      · rw [last]
        decide
      · have rest := ih last fun k hk => noDot k (List.mem_cons_of_mem _ hk)
        rw [List.length_cons]
        omega
    · exact Nat.le_of_eq (by rw [joinKeys_of_first empty, Text.segments_ofSegments ne noDot])

/-- A name splits into the keys that it was made of exactly if they are plain. -/
theorem segments_joinKeys_iff {keys : List String} (ne : keys ≠ []) :
    Text.segments (joinKeys keys) = keys ↔ PlainPath keys := by
  constructor
  · intro same
    have noDot : ∀ key ∈ keys, '.' ∉ key.toList :=
      fun key hk => Text.dot_notMem_of_mem_segments (same.symm ▸ hk)
    refine ⟨noDot, fun head => ?_⟩
    obtain ⟨rest, rfl⟩ := List.head?_eq_some_iff.1 head
    by_contra more
    have last : rest ≠ [] := fun e => more (by rw [e]; rfl)
    have shorter := length_segments_joinKeys_le last
      fun key hk => noDot key (List.mem_cons_of_mem _ hk)
    rw [← joinKeys_empty, same, List.length_cons] at shorter
    omega
  · rintro ⟨noDot, first⟩
    obtain ⟨key, rest, rfl⟩ := List.exists_cons_of_ne_nil ne
    by_cases empty : key = ""
    · subst empty
      obtain rfl := List.length_eq_zero_iff.1 (Nat.succ.inj (first rfl))
      decide
    · rw [joinKeys_of_first empty, Text.segments_ofSegments ne noDot]

def absent (catalog : Catalog) (doc : Document) : List String :=
  alwaysAvailable.filter fun name => !(doc.leafPaths catalog).any (joinKeys ·.1 = name)

theorem parameters_perm (catalog : Catalog) (doc : Document) :
    (doc.parameters catalog).Perm
      ((doc.leafPaths catalog).map (fun leaf =>
          ⟨joinKeys leaf.1, catalog.classify (joinKeys leaf.1), some leaf.2⟩) ++
        (doc.absent catalog).map fun name => ⟨name, catalog.classify name, none⟩) := by
  unfold parameters
  refine ((List.mergeSort_perm _ _).map _).trans ?_
  rw [leaves_eq, List.map_append, List.map_map, List.map_map, List.map_map, absent]
  simp only [List.any_map]
  rfl

theorem mem_parameters_some_iff {p : Parameter} {current : Json} :
    p ∈ doc.parameters catalog ∧ p.current = some current ↔
      ∃ keys, (keys, current) ∈ doc.leafPaths catalog ∧
        p = ⟨joinKeys keys, catalog.classify (joinKeys keys), some current⟩ := by
  rw [(parameters_perm catalog doc).mem_iff, List.mem_append, List.mem_map, List.mem_map]
  constructor
  · rintro ⟨⟨leaf, hl, rfl⟩ | ⟨name, -, rfl⟩, h⟩
    · obtain rfl := Option.some.inj h
      exact ⟨leaf.1, hl, rfl⟩
    · cases h
  · rintro ⟨keys, hl, rfl⟩
    exact ⟨.inl ⟨_, hl, rfl⟩, rfl⟩

theorem filter_eq_singleton {α β : Type} {f : α → β} {p : α → Bool} {xs : List α} {a : α}
    (nodup : (xs.map f).Nodup) (ha : a ∈ xs) (only : ∀ x ∈ xs, p x = true ↔ f x = f a) :
    xs.filter p = [a] := by
  obtain ⟨before, after, rfl⟩ := List.append_of_mem ha
  rw [List.map_append, List.map_cons] at nodup
  obtain ⟨-, tail, apart⟩ := List.nodup_append.1 nodup
  have left : before.filter p = [] := by
    refine List.filter_eq_nil_iff.2 fun x hx hp => ?_
    have same := (only x (List.mem_append_left _ hx)).1 hp
    exact apart _ (List.mem_map_of_mem hx) _ List.mem_cons_self same
  have right : after.filter p = [] := by
    refine List.filter_eq_nil_iff.2 fun x hx hp => ?_
    have same := (only x (List.mem_append_right _ (List.mem_cons_of_mem _ hx))).1 hp
    exact (List.nodup_cons.1 tail).1 (same ▸ List.mem_map_of_mem hx)
  rw [List.filter_append, left, List.nil_append, List.filter_cons_of_pos, right]
  exact (only a ha).2 rfl

theorem filter_parameters (unique : (Json.obj doc).UniqueKeys) {keys : List String} {value : Json}
    (h : (keys, value) ∈ doc.leafPaths catalog)
    (only : ∀ leaf ∈ doc.leafPaths catalog, joinKeys leaf.1 = joinKeys keys → leaf.1 = keys) :
    (doc.parameters catalog).filter (·.name = joinKeys keys) =
      [⟨joinKeys keys, catalog.classify (joinKeys keys), some value⟩] := by
  have leaves : (doc.leafPaths catalog).filter (joinKeys ·.1 = joinKeys keys) = [(keys, value)] := by
    refine filter_eq_singleton (nodup_leafPathsOf _ doc unique) h fun leaf hl => ?_
    rw [decide_eq_true_eq]
    exact ⟨only leaf hl, fun same => by rw [same]⟩
  have added : (doc.absent catalog).filter (· = joinKeys keys) = [] := by
    refine List.filter_eq_nil_iff.2 fun name hn same => ?_
    obtain ⟨-, none⟩ := List.mem_filter.1 hn
    rw [Bool.not_eq_true', List.any_eq_false] at none
    exact none _ h (decide_eq_true (of_decide_eq_true same).symm)
  have entries := (parameters_perm catalog doc).filter (·.name = joinKeys keys)
  rw [List.filter_append, List.filter_map, List.filter_map] at entries
  change List.Perm _ (((doc.leafPaths catalog).filter (joinKeys ·.1 = joinKeys keys)).map _ ++
    ((doc.absent catalog).filter (· = joinKeys keys)).map _) at entries
  rw [leaves, added] at entries
  exact List.perm_singleton.1 entries

theorem eq_of_prefix_of_isLeaf {promptsField : String} {p q : List String} {v w : Json}
    (hv : doc.getAt? p = some v) (leaf : IsLeaf promptsField p v) (hw : doc.getAt? q = some w)
    (other : IsLeaf promptsField q w) (h : p <+: q) : p = q := by
  obtain ⟨rest, rfl⟩ := h
  by_contra ne
  have hr : rest ≠ [] := fun e => ne (by rw [e, List.append_nil])
  have hp : p ≠ [] := fun e => by rw [e] at hv; cases hv
  obtain ⟨members, found, -⟩ := (getAt?_append hp hr).1 hw
  obtain rfl := Option.some.inj (hv.symm.trans found)
  have prompts := leaf.last.resolve_left (by simp [Json.object?])
  apply other.above
  rw [List.dropLast_append_of_ne_nil hr]
  exact List.mem_append_left _ (List.mem_of_getLast? prompts)

theorem eq_of_overlap_of_isLeaf {promptsField : String} {p q : List String} {v w : Json}
    (hv : doc.getAt? p = some v) (leaf : IsLeaf promptsField p v) (hw : doc.getAt? q = some w)
    (other : IsLeaf promptsField q w) (h : Overlap p q) : p = q := by
  rcases h with h | h
  · exact eq_of_prefix_of_isLeaf hv leaf hw other h
  · exact (eq_of_prefix_of_isLeaf hw other hv leaf h).symm

/-- A scalar that is written at a leaf is a leaf, and all others were there before. -/
theorem leafPaths_setAt (unique : (Json.obj doc).UniqueKeys) {keys : List String} {current value : Json}
    (h : (keys, current) ∈ doc.leafPaths catalog) (scalar : value.isScalar = true) :
    (keys, value) ∈ (doc.setAt keys value).leafPaths catalog ∧
      ∀ leaf ∈ (doc.setAt keys value).leafPaths catalog,
        leaf.1 = keys ∨ leaf ∈ doc.leafPaths catalog := by
  have unique' : (Json.obj (doc.setAt keys value)).UniqueKeys :=
    uniqueKeys_setAt unique (Json.uniqueKeys_of_isScalar scalar)
  obtain ⟨read, place⟩ := (mem_leafPathsOf_iff unique).1 h
  have ne : keys ≠ [] := ne_nil_of_mem_leafPathsOf h
  have written := getAt?_setAt_self ne value doc
  have leaf : IsLeaf catalog.promptsField keys value :=
    ⟨place.above, .inl (Json.object?_of_isScalar scalar)⟩
  refine ⟨(mem_leafPathsOf_iff unique').2 ⟨written, leaf⟩, ?_⟩
  rintro ⟨path, w⟩ hw
  obtain ⟨found, other⟩ := (mem_leafPathsOf_iff unique').1 hw
  by_cases overlap : Overlap path keys
  · exact .inl (eq_of_overlap_of_isLeaf found other written leaf overlap)
  · rw [getAt?_setAt_of_not_overlap overlap] at found
    exact .inr ((mem_leafPathsOf_iff unique).2 ⟨found, other⟩)

/-- What is listed under a name is read there, and whatever scalar is written there is listed instead. -/
structure Targetable (catalog : Catalog) (doc : Document) (p : Parameter) (current : Json) : Prop where
  reads : doc.get? p.name = some current
  writes : ∀ value : Json, value.isScalar = true →
    ((doc.set p.name value).parameters catalog).filter (·.name = p.name) =
      [⟨p.name, p.kind, some value⟩]

theorem targetable_of_plain (unique : (Json.obj doc).UniqueKeys)
    (plain : ∀ leaf ∈ doc.leafPaths catalog, PlainPath leaf.1) {keys : List String} {current : Json}
    (h : (keys, current) ∈ doc.leafPaths catalog) :
    Targetable catalog doc ⟨joinKeys keys, catalog.classify (joinKeys keys), some current⟩ current := by
  have split {leaf : List String × Json} (hl : leaf ∈ doc.leafPaths catalog) :
      Text.segments (joinKeys leaf.1) = leaf.1 :=
    (segments_joinKeys_iff (ne_nil_of_mem_leafPathsOf hl)).2 (plain leaf hl)
  constructor
  · rw [get?, split h]
    exact ((mem_leafPathsOf_iff unique).1 h).1
  · intro value scalar
    obtain ⟨here, before⟩ := leafPaths_setAt unique h scalar
    rw [set, split h]
    refine filter_parameters (uniqueKeys_setAt unique (Json.uniqueKeys_of_isScalar scalar)) here ?_
    intro leaf hl same
    rcases before leaf hl with e | hl
    · exact e
    · rw [← split hl, same, split h]

/-- A name that does not split into its keys leads to another place, and the leaf stays as it is. -/
theorem plainPath_of_targetable (unique : (Json.obj doc).UniqueKeys) {keys : List String}
    {current : Json} (h : (keys, current) ∈ doc.leafPaths catalog)
    (targetable : Targetable catalog doc
      ⟨joinKeys keys, catalog.classify (joinKeys keys), some current⟩ current) : PlainPath keys := by
  have ne : keys ≠ [] := ne_nil_of_mem_leafPathsOf h
  rw [← segments_joinKeys_iff ne]
  obtain ⟨read, leaf⟩ := (mem_leafPathsOf_iff unique).1 h
  obtain ⟨reads, writes⟩ := targetable
  have there : doc.getAt? (Text.segments (joinKeys keys)) = some current := reads
  by_contra other
  have beside : ¬ Overlap keys (Text.segments (joinKeys keys)) := by
    rintro (⟨rest, e⟩ | ⟨rest, e⟩)
    · rw [← e] at there
      rw [eq_nil_of_getAt?_append ne read there, List.append_nil] at e
      exact other e.symm
    · rw [← e] at read
      rw [eq_nil_of_getAt?_append (Text.segments_ne_nil _) there read, List.append_nil] at e
      exact other e
  obtain ⟨value, scalar, differs⟩ : ∃ value : Json, value.isScalar = true ∧ value ≠ current := by
    by_cases null : current = .null
    · exact ⟨.bool true, rfl, by rw [null]; simp⟩
    · exact ⟨.null, rfl, Ne.symm null⟩
  have unique' : (Json.obj (doc.set (joinKeys keys) value)).UniqueKeys :=
    uniqueKeys_setAt unique (Json.uniqueKeys_of_isScalar scalar)
  have stays : (keys, current) ∈ (doc.set (joinKeys keys) value).leafPaths catalog := by
    refine (mem_leafPathsOf_iff unique').2 ⟨?_, leaf⟩
    rw [set, getAt?_setAt_of_not_overlap beside, read]
  have listed := (mem_parameters_some_iff.2 ⟨keys, stays, rfl⟩).1
  have once : ⟨joinKeys keys, catalog.classify (joinKeys keys), some current⟩ ∈
      ((doc.set (joinKeys keys) value).parameters catalog).filter (·.name = joinKeys keys) :=
    List.mem_filter.2 ⟨listed, decide_eq_true rfl⟩
  rw [writes value scalar, List.mem_singleton] at once
  exact differs (Option.some.inj (congrArg Parameter.current once)).symm

/-- A listing keeps its word for a document if and only if every leaf has plain keys. -/
theorem listed_targetable_iff (catalog : Catalog) {doc : Document} (unique : (Json.obj doc).UniqueKeys) :
    (∀ p ∈ doc.parameters catalog, ∀ current, p.current = some current →
      Targetable catalog doc p current) ↔
    ∀ leaf ∈ doc.leafPaths catalog, PlainPath leaf.1 := by
  constructor
  · rintro targetable ⟨keys, current⟩ h
    have listed := mem_parameters_some_iff.2 ⟨keys, h, rfl⟩
    exact plainPath_of_targetable unique h (targetable _ listed.1 current listed.2)
  · intro plain p hp current hc
    obtain ⟨keys, h, rfl⟩ := mem_parameters_some_iff.1 ⟨hp, hc⟩
    exact targetable_of_plain unique plain h

def nestedDocument : Document :=
  [("anim", .obj [("", .int 1), ("zoom", .str "0: (1)")]), ("prompts", .obj [("0", .str "sea")])]

theorem listed_targetable_iff_nested : (Json.obj nestedDocument).UniqueKeys ∧
    Targetable {} nestedDocument ⟨"anim.zoom", .numeric, some (.str "0: (1)")⟩ (.str "0: (1)") ∧
    Targetable {} nestedDocument ⟨"anim.", .numeric, some (.int 1)⟩ (.int 1) := by
  have unique : (Json.obj nestedDocument).UniqueKeys := by
    simp [nestedDocument, Json.UniqueKeys, Json.UniqueKeysMembers]
  have leaves : nestedDocument.leafPaths {} = [(["anim", ""], .int 1),
      (["anim", "zoom"], .str "0: (1)"), (["prompts"], .obj [("0", .str "sea")])] := rfl
  have plain : ∀ leaf ∈ nestedDocument.leafPaths {}, PlainPath leaf.1 := by
    have keys : ∀ keys ∈ [["anim", ""], ["anim", "zoom"], ["prompts"]],
        (∀ key ∈ keys, '.' ∉ key.toList) ∧ (keys.head? = some "" → keys.length = 1) := by
      decide +kernel
    intro leaf hl
    obtain ⟨noDot, first⟩ := keys leaf.1 (by
      rw [leaves] at hl
      exact List.mem_map_of_mem hl)
    exact ⟨noDot, first⟩
  have targetable := (listed_targetable_iff {} unique).2 plain
  have zoom : (["anim", "zoom"], Json.str "0: (1)") ∈ nestedDocument.leafPaths {} := by
    simp [leaves]
  have empty : (["anim", ""], Json.int 1) ∈ nestedDocument.leafPaths {} := by
    simp [leaves]
  obtain ⟨listed, value⟩ := mem_parameters_some_iff.2 ⟨_, zoom, rfl⟩
  obtain ⟨listed', value'⟩ := mem_parameters_some_iff.2 ⟨_, empty, rfl⟩
  exact ⟨unique, targetable _ listed _ value, targetable _ listed' _ value'⟩

def emptyKeyDocument : Document := [("", .obj [("x", .int 1)])]

/-- What stands below an empty first key is listed under a name that leads elsewhere. -/
theorem listed_below_empty_key : ∃ p ∈ emptyKeyDocument.parameters {},
    p.name = "x" ∧ p.current = some (.int 1) ∧ emptyKeyDocument.get? p.name = none := by
  have leaf : (["", "x"], Json.int 1) ∈ emptyKeyDocument.leafPaths {} := List.mem_singleton.2 rfl
  obtain ⟨listed, value⟩ := mem_parameters_some_iff.2 ⟨_, leaf, rfl⟩
  have name : joinKeys ["", "x"] = "x" := by decide
  have path : Text.segments "x" = ["x"] := by decide +kernel
  refine ⟨_, listed, name, value, ?_⟩
  change emptyKeyDocument.get? (joinKeys ["", "x"]) = none
  rw [name, get?, path]
  rfl

end Document

end SettingsSweep

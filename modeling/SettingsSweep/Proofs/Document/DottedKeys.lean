import SettingsSweep.Proofs.Document.MergedEnds
import Mathlib.Data.Set.Finite.Basic

/-!
Dotted keys as paths. Overrides have the effect of their expansion on every document without dotted keys exactly if no
dotted key of theirs has an object, and they unfold into the empty document. Where a dotted key has an object, some
document loses what it held beside; where a dotted key is put in whole, its value is found at no path.
-/

set_option autoImplicit false

namespace SettingsSweep.Document

theorem find?_merge_of_dot {key : String} (dot : '.' ∈ key.toList) (members : List (String × Json))
    {doc : Document} (h : doc.find? key = none) : (doc.merge members).1.find? key = none := by
  induction members generalizing doc with
  | nil => exact h
  | cons member members ih =>
    have step : (doc.mergeMember member.1 member.2).1.find? key = none := by
      rcases mergeMember_cases member.1 member.2 doc with ⟨incoming, existing, -, found, merged⟩ | written
      · have ne : key ≠ member.1 := fun same => by
          rw [same, found] at h
          cases h
        rw [merged, Dict.find?_put_of_ne ne, h]
      · have head : (Text.segments member.1).head? ≠ some key := fun head =>
          Text.dot_notMem_of_mem_segments (List.mem_of_mem_head? head) dot
        rw [written, find?_setAt_of_head_ne head, h]
    exact ih step

theorem plainKeys_objectAt_setAt {key : String} {path : List String}
    (noDots : ∀ part ∈ path, '.' ∉ part.toList) {value : Json} (scalar : value.object? = none)
    {doc : Document} (plain : (Json.obj (doc.objectAt key)).PlainKeys) :
    (Json.obj ((doc.setAt path value).objectAt key)).PlainKeys := by
  by_cases head : path.head? = some key
  · obtain ⟨keys, rfl⟩ := List.head?_eq_some_iff.1 head
    by_cases last : keys = []
    · subst last
      rw [objectAt_eq_nil]
      · trivial
      · intro existing found
        rw [setAt, Dict.find?_put_self] at found
        rw [Option.some.inj found] at scalar
        cases scalar
    · rw [setAt_cons key last, objectAt_put_self]
      exact plainKeys_setAt plain (List.forall_mem_cons.1 noDots).2
        (Json.plainKeys_of_object?_eq_none scalar)
  · rw [objectAt, find?_setAt_of_head_ne head]
    exact plain

/-- Members of other names, whose dotted keys have no objects, put no dotted key below a key. -/
theorem plainKeys_objectAt_merge {key : String} {members : List (String × Json)}
    (other : ∀ m ∈ members, m.1 ≠ key ∧ ('.' ∈ m.1.toList → m.2.object? = none)) {doc : Document}
    (plain : (Json.obj (doc.objectAt key)).PlainKeys) :
    (Json.obj ((doc.merge members).1.objectAt key)).PlainKeys := by
  induction members generalizing doc with
  | nil => exact plain
  | cons member members ih =>
    obtain ⟨⟨ne, flat⟩, other⟩ := List.forall_mem_cons.1 other
    have step : (Json.obj ((doc.mergeMember member.1 member.2).1.objectAt key)).PlainKeys := by
      by_cases dot : '.' ∈ member.1.toList
      · rw [mergeMember_of_not_both (.inl (flat dot))]
        exact plainKeys_objectAt_setAt (fun part => Text.dot_notMem_of_mem_segments) (flat dot) plain
      · rw [mergeMember_eq dot, objectAt, Dict.find?_put_of_ne (Ne.symm ne)]
        exact plain
    exact ih other step

/-- What a merge reads at a path that leads to no end is read right after each of the members. -/
theorem getAt?_of_merge_append {before after : List (String × Json)} {m : String × Json}
    {path : List String} (noDots : ∀ part ∈ path, '.' ∉ part.toList)
    (away : ∀ e ∈ ends (before ++ m :: after), ¬ path <+: e.1) {doc : Document} {value : Json}
    (read : (doc.merge (before ++ m :: after)).1.getAt? path = some value) :
    ((doc.merge before).1.mergeMember m.1 m.2).1.getAt? path = some value := by
  have split : (doc.merge (before ++ m :: after)).1 =
      (((doc.merge before).1.mergeMember m.1 m.2).1.merge after).1 := by
    simp only [merge_eq_foldl, List.foldl_append, List.foldl_cons]
  rw [split] at read
  refine getAt?_of_merge after _ path value noDots (fun e he => away e ?_) read
  obtain ⟨n, hn, he⟩ := mem_ends.1 he
  exact mem_ends.2 ⟨n, List.mem_append_right _ (List.mem_cons_of_mem _ hn), he⟩

/-- At the path there is an object that the members hold, and merging them leaves nothing else in it. -/
structure Empties (members : Document) (path : List String) : Prop where
  leads : ∃ e ∈ ends members, path <+: e.1 ∧ (path = e.1 → e.2 = .obj [])
  lost : ∀ fresh : String, '.' ∉ fresh.toList → (∀ e ∈ ends members, fresh ∉ e.1) →
    ∀ doc : Document, (Json.obj doc).PlainKeys → (doc.merge members).1.getAt? (path ++ [fresh]) = none

theorem noDots_append_singleton {path : List String} (noDots : ∀ part ∈ path, '.' ∉ part.toList)
    {last : String} (noDot : '.' ∉ last.toList) : ∀ part ∈ path ++ [last], '.' ∉ part.toList :=
  List.forall_mem_append.2 ⟨noDots, List.forall_mem_singleton.2 noDot⟩

theorem Empties.noDots {members : Document} {path : List String} (h : Empties members path)
    (unique : (Json.obj members).UniqueKeys) : ∀ part ∈ path, '.' ∉ part.toList := by
  obtain ⟨e, he, leads, -⟩ := h.leads
  exact fun part hp => (isEnd_of_mem_ends members unique.2 e he).noDots part (leads.subset hp)

section

variable {members : Document} {fresh : String} (unused : ∀ e ∈ ends members, fresh ∉ e.1)
  {path : List String} (within : fresh ∈ path) (noDots : ∀ part ∈ path, '.' ∉ part.toList)

include unused within noDots

theorem getAt?_eq_none_of_unused : members.getAt? path = none := by
  by_contra found
  obtain ⟨value, read⟩ := Option.ne_none_iff_exists'.1 found
  obtain ⟨e, he, leads⟩ := exists_end_of_getAt? noDots read
  exact unused e he (leads.subset within)

theorem getAt?_merge_eq_none {m : String × Json} (hm : m ∈ members) {doc : Document}
    (h : ∀ before after, members = before ++ m :: after →
      ((doc.merge before).1.mergeMember m.1 m.2).1.getAt? path = none) :
    (doc.merge members).1.getAt? path = none := by
  by_contra found
  obtain ⟨value, read⟩ := Option.ne_none_iff_exists'.1 found
  obtain ⟨before, after, rfl⟩ := List.append_of_mem hm
  have step := getAt?_of_merge_append noDots (fun e he leads => unused e he (leads.subset within)) read
  rw [h before after rfl] at step
  cases step

end

theorem eq_empty_of_mem_endsOf_obj {members : Document} {f : List String × Json}
    (h : f ∈ endsOf (.obj members)) (top : f.1 = []) : f.2 = .obj [] := by
  by_cases empty : members = []
  · subst empty
    rw [List.mem_singleton.1 h]
  · rw [endsOf_obj empty] at h
    exact absurd top (ne_nil_of_mem_ends h)

/-- An object at a dotted key replaces the one that is there. -/
theorem empties_of_dot {members : Document} {key : String} (dot : '.' ∈ key.toList) {below : Document}
    (hm : (key, .obj below) ∈ members) : Empties members (Text.segments key) := by
  have ne := Text.segments_ne_nil key
  refine ⟨?_, fun fresh noDot unused doc plain => ?_⟩
  · obtain ⟨f, hf⟩ := List.exists_mem_of_ne_nil _ (endsOf_ne_nil (.obj below))
    refine ⟨under (Text.segments key) f, mem_ends.2 ⟨_, hm, under_mem_memberEnds hf⟩,
      List.prefix_append _ f.1, fun same => ?_⟩
    have top : f.1 = [] := List.self_eq_append_right.1 same
    exact (eq_empty_of_mem_endsOf_obj hf top :)
  · have noDots : ∀ part ∈ Text.segments key ++ [fresh], '.' ∉ part.toList :=
      noDots_append_singleton (fun part hp => Text.dot_notMem_of_mem_segments hp) noDot
    refine getAt?_merge_eq_none unused (by simp) noDots hm fun before after _ => ?_
    have absent : doc.find? key = none := Dict.find?_eq_none_of_notMem fun there => by
      obtain ⟨m, hm, same⟩ := List.mem_map.1 there
      exact plain_keys plain m hm (same ▸ dot)
    have still := find?_merge_of_dot dot before absent
    have unusedBelow : ∀ e ∈ ends below, fresh ∉ e.1 := fun e he there =>
      unused _ (mem_ends.2 ⟨_, hm, under_mem_memberEnds (mem_endsOf_of_mem_ends he)⟩)
        (List.mem_append_right _ there)
    have inside : below.getAt? [fresh] = none :=
      getAt?_eq_none_of_unused unusedBelow (by simp) (by simpa using noDot)
    rw [mergeMember_of_not_both (.inr (by simp [still]))]
    by_contra found
    obtain ⟨value, read⟩ := Option.ne_none_iff_exists'.1 found
    rw [getAt?_append ne (List.cons_ne_nil fresh []), getAt?_setAt_self ne] at read
    obtain ⟨members, same, read⟩ := read
    obtain rfl := Json.obj.inj (Option.some.inj same)
    rw [inside] at read
    cases read

/-- What is emptied below a plain key stays so from above it, if no dotted key beside it has an object. -/
theorem Empties.cons {members : Document} (unique : (Json.obj members).UniqueKeys)
    (flat : ∀ m ∈ members, '.' ∈ m.1.toList → m.2.object? = none) {key : String}
    (noDot : '.' ∉ key.toList) {below : Document} (hm : (key, .obj below) ∈ members)
    {path : List String} (h : Empties below path) : Empties members (key :: path) := by
  have lifted {e : List String × Json} (he : e ∈ ends below) : (key :: e.1, e.2) ∈ ends members :=
    mem_ends.2 ⟨_, hm, cons_mem_memberEnds noDot he⟩
  obtain ⟨e, he, leads, whole⟩ := h.leads
  refine ⟨⟨_, lifted he, List.cons_prefix_cons.2 ⟨rfl, leads⟩,
    fun same => whole (List.cons.inj same).2⟩, fun fresh freshPlain unused doc plain => ?_⟩
  have uniqueBelow := (Json.uniqueKeys_obj_iff.1 unique).2 _ hm
  have noDots := noDots_append_singleton (h.noDots uniqueBelow) freshPlain
  have unusedBelow : ∀ e ∈ ends below, fresh ∉ e.1 :=
    fun e he there => unused _ (lifted he) (List.mem_cons_of_mem key there)
  have further : path ++ [fresh] ≠ [] := by simp
  have noDotsAll : ∀ part ∈ key :: path ++ [fresh], '.' ∉ part.toList :=
    List.forall_mem_cons.2 ⟨noDot, noDots⟩
  refine getAt?_merge_eq_none unused (by simp) noDotsAll hm fun before after split => ?_
  rw [List.cons_append, getAt?_cons key further]
  by_cases both : ∃ existing, (doc.merge before).1.find? key = some (.obj existing)
  · obtain ⟨existing, there⟩ := both
    have plainThere : (Json.obj existing).PlainKeys := by
      rw [← objectAt_of_find? there]
      refine plainKeys_objectAt_merge (fun m hm => ⟨fun same => ?_, flat m ?_⟩)
        (plainKeys_objectAt plain key)
      · have beside := Dict.notMem_keys_of_nodup (split ▸ (Json.uniqueKeys_obj_iff.1 unique).1)
        exact beside (List.mem_map.2 ⟨m, hm, same⟩)
      · rw [split]
        exact List.mem_append_left _ hm
    rw [mergeMember_of_both there, objectAt_put_self]
    exact h.lost fresh freshPlain unusedBelow existing plainThere
  · rw [mergeMember_of_not_both (.inr (not_exists.1 both)), Text.segments_of_notMem noDot]
    exact (congrArg (getAt? (path ++ [fresh])) (objectAt_put_self key below _)).trans
      (getAt?_eq_none_of_unused unusedBelow (by simp) noDots)

theorem exists_empties (members : Document) (unique : (Json.obj members).UniqueKeys)
    (h : ¬ (Json.obj members).FlatDots) : ∃ path, Empties members path := by
  by_cases here : ∃ key below, (key, Json.obj below) ∈ members ∧ '.' ∈ key.toList
  · obtain ⟨key, below, hm, dot⟩ := here
    exact ⟨_, empties_of_dot dot hm⟩
  · have flat : ∀ m ∈ members, '.' ∈ m.1.toList → m.2.object? = none := by
      rintro ⟨key, value⟩ hm dot
      cases value with
      | obj below => exact absurd ⟨key, below, hm, dot⟩ here
      | _ => rfl
    obtain ⟨⟨key, value⟩, hm, deeper⟩ : ∃ m ∈ members, ¬ m.2.FlatDots := by
      by_contra none
      exact h (Json.flatDots_obj_iff.2 fun m hm =>
        ⟨flat m hm, by_contra fun deeper => none ⟨m, hm, deeper⟩⟩)
    cases value with
    | obj below =>
      have found := (Dict.mem_iff_find? (Json.uniqueKeys_obj_iff.1 unique).1).1 hm
      have noDot : '.' ∉ key.toList := fun dot => here ⟨key, below, hm, dot⟩
      obtain ⟨path, emptied⟩ := exists_empties below (uniqueKeys_of_find? unique found) deeper
      exact ⟨_, emptied.cons unique flat noDot hm⟩
    | _ => exact absurd trivial deeper
termination_by sizeOf (Json.obj members)
decreasing_by exact sizeOf_lt_of_find? found

theorem getAt?_layAll_of_beside {writes : List (List String × Json)}
    (areEnds : ∀ e ∈ writes, IsEnd e ∧ e.1 ≠ []) {path : List String}
    (beside : ∀ e ∈ writes, ¬ Overlap path e.1 ∨
      e.2 = .obj [] ∧ ∃ rest, rest ≠ [] ∧ path = e.1 ++ rest) {doc : Document} {value : Json}
    (read : doc.getAt? path = some value) : (doc.layAll writes).getAt? path = some value := by
  induction writes generalizing doc with
  | nil => exact read
  | cons e writes ih =>
    obtain ⟨⟨isEnd, ne⟩, areEnds⟩ := List.forall_mem_cons.1 areEnds
    obtain ⟨here, beside⟩ := List.forall_mem_cons.1 beside
    have step : (doc.lay e.1 e.2).getAt? path = some value := by
      rcases here with apart | ⟨empty, rest, further, rfl⟩
      · rwa [getAt?_lay_of_not_overlap apart]
      · exact (getAt?_lay_append isEnd ne further).2 ⟨empty, read⟩
    exact ih areEnds beside step

/-- What stands beside the ends of an object stays there when the ends are laid down. -/
theorem Empties.kept {members : Document} (unique : (Json.obj members).UniqueKeys)
    (apart : Apart (ends members)) {path : List String} (h : Empties members path) {fresh : String}
    (unused : ∀ e ∈ ends members, fresh ∉ e.1) {doc : Document} {value : Json}
    (read : doc.getAt? (path ++ [fresh]) = some value) :
    (doc.merge (expand members)).1.getAt? (path ++ [fresh]) = some value := by
  rw [merge_expand unique apart]
  refine getAt?_layAll_of_beside (areEnds_of_uniqueKeys unique) (fun e he => ?_) read
  by_cases together : Overlap (path ++ [fresh]) e.1
  · have notBelow : ¬ path ++ [fresh] <+: e.1 := fun leads => unused e he (leads.subset (by simp))
    rcases List.prefix_concat_iff.1 (together.resolve_left notBelow) with same | above
    · exact absurd (by simp [same]) (unused e he)
    · -- The end leads to the ends of the object, so it is the object itself, without members.
      obtain ⟨f, hf, leads, whole⟩ := h.leads
      obtain rfl := apart.eq_of_overlap he hf (.inl (above.trans leads))
      have same := leads.eq_of_length (le_antisymm leads.length_le above.length_le)
      exact .inr ⟨whole same, [fresh], List.cons_ne_nil fresh [], by rw [same]⟩
  · exact .inl together

theorem exists_fresh (names : List String) : ∃ fresh : String, '.' ∉ fresh.toList ∧ fresh ∉ names := by
  have many : (Set.range fun n => String.ofList (List.replicate n 'x')).Infinite := by
    refine Set.infinite_range_of_injective fun m n same => ?_
    simpa using congrArg String.length same
  obtain ⟨_, ⟨n, rfl⟩, unused⟩ := many.exists_notMem_finset names.toFinset
  exact ⟨String.ofList (List.replicate n 'x'), by simp, by simpa using unused⟩

theorem uniqueKeys_plainKeys_expand {overrides : Document} (unique : (Json.obj overrides).UniqueKeys) :
    (Json.obj (expand overrides)).UniqueKeys ∧ (Json.obj (expand overrides)).PlainKeys :=
  uniqueKeys_plainKeys_writeAll (isEnd_of_mem_ends overrides unique.2)

theorem getAt?_merge_expand_of_mem {overrides : Document} (unique : (Json.obj overrides).UniqueKeys)
    (apart : Apart (ends overrides)) {e : List String × Json} (he : e ∈ ends overrides) :
    (merge [] (expand overrides)).1.getAt? e.1 = some e.2 := by
  obtain ⟨uniqueThere, plainThere⟩ := uniqueKeys_plainKeys_expand unique
  have whole : (merge [] (expand overrides)).1 = expand overrides :=
    merge_append (plain_keys plainThere) (Json.uniqueKeys_obj_iff.1 uniqueThere).1
  rw [whole]
  exact getAt?_writeAll_of_mem apart he (ne_nil_of_mem_ends he) []

theorem flatDots_of_agree {overrides : Document} (unique : (Json.obj overrides).UniqueKeys)
    (apart : Apart (ends overrides))
    (agree : ∀ doc : Document, (Json.obj doc).UniqueKeys → (Json.obj doc).PlainKeys → ∀ path,
      (doc.merge overrides).1.get? path = (doc.merge (expand overrides)).1.get? path) :
    (Json.obj overrides).FlatDots := by
  by_contra deep
  obtain ⟨path, emptied⟩ := exists_empties overrides unique deep
  obtain ⟨fresh, freshPlain, unused⟩ := exists_fresh ((ends overrides).flatMap Prod.fst)
  have unused : ∀ e ∈ ends overrides, fresh ∉ e.1 :=
    fun e he there => unused (List.mem_flatMap.2 ⟨e, he, there⟩)
  have noDots := noDots_append_singleton (emptied.noDots unique) freshPlain
  -- A document that has one more value in the object at the path.
  let doc : Document := setAt (path ++ [fresh]) .null []
  have plain : (Json.obj doc).PlainKeys := plainKeys_setAt trivial noDots trivial
  have there : doc.getAt? (path ++ [fresh]) = some .null := getAt?_setAt_self (by simp) _ _
  have differ := agree doc (uniqueKeys_setAt ⟨List.nodup_nil, trivial⟩ trivial) plain
    (Text.ofSegments (path ++ [fresh]))
  rw [get?, get?, Text.segments_ofSegments (by simp) noDots,
    emptied.lost fresh freshPlain unused doc plain, emptied.kept unique apart unused there] at differ
  cases differ

/-- Overrides with dotted keys, none of whose values is in the way of another, and the same overrides with every dotted
    key spelled out: where the overrides unfold into a document, both leave the same one. They can be told apart by no
    document and no path exactly if no dotted key has an object and they unfold into the empty document. -/
theorem merge_expand_iff {overrides : Document} (unique : (Json.obj overrides).UniqueKeys)
    (apart : Apart (ends overrides)) :
    (∀ doc, Unfolds doc overrides → (doc.merge overrides).1 = (doc.merge (expand overrides)).1) ∧
    ((∀ doc : Document, (Json.obj doc).UniqueKeys → (Json.obj doc).PlainKeys → ∀ path,
        (doc.merge overrides).1.get? path = (doc.merge (expand overrides)).1.get? path) ↔
      (Json.obj overrides).FlatDots ∧ Unfolds [] overrides) := by
  refine ⟨fun doc => merge_expand_of_unfolds unique apart, fun agree => ?_, ?_⟩
  · have flat := flatDots_of_agree unique apart agree
    refine ⟨flat, unfolds_of_read overrides [] unique.2 flat apart (fun e _ => getAt?_nil_document e.1) ?_⟩
    intro e he
    have isEnd := isEnd_of_mem_ends overrides unique.2 e he
    have same := agree [] ⟨List.nodup_nil, trivial⟩ trivial (Text.ofSegments e.1)
    rw [get?, get?, Text.segments_ofSegments (ne_nil_of_mem_ends he) isEnd.noDots,
      getAt?_merge_expand_of_mem unique apart he] at same
    exact ⟨e.2, same⟩
  · rintro ⟨flat, unfolds⟩ doc - - path
    have there := Unfolds.of_covers overrides [] doc unique.2 flat unfolds (covers_nil doc)
    rw [merge_expand_of_unfolds unique apart there]

def layeredDocument : Document :=
  [("anim", .obj [("noise", .obj [("seed", .int 1), ("kind", .str "smooth")])])]

def layeredOverrides : Document :=
  [("anim.zoom", .int 2), ("anim", .obj [("noise.seed", .int 7)])]

theorem ends_layeredOverrides : ends layeredOverrides =
    [(["anim", "zoom"], .int 2), (["anim", "noise", "seed"], .int 7)] := by
  rfl

theorem merge_expand_iff_layered : (Json.obj layeredOverrides).UniqueKeys ∧
    Apart (ends layeredOverrides) ∧ Unfolds layeredDocument layeredOverrides ∧
    (layeredDocument.merge layeredOverrides).1 = (layeredDocument.merge (expand layeredOverrides)).1 ∧
    (layeredDocument.merge layeredOverrides).1.get? "anim.noise.seed" = some (.int 7) ∧
    (layeredDocument.merge (expand layeredOverrides)).1.get? "anim.noise.seed" = some (.int 7) := by
  have unique : (Json.obj layeredOverrides).UniqueKeys := by
    simp [layeredOverrides, Json.UniqueKeys, Json.UniqueKeysMembers]
  have apart : Apart (ends layeredOverrides) := by
    rw [ends_layeredOverrides]
    simp [Apart, Overlap]
  have flat : (Json.obj layeredOverrides).FlatDots := by
    simp [layeredOverrides, Json.FlatDots, Json.FlatDotsMembers, Json.object?]
  have noDot : '.' ∉ "anim".toList := by decide
  have found : (mergeMember [] "anim.zoom" (.int 2)).1.find? "anim" = some (.obj [("zoom", .int 2)]) := by
    rfl
  have unfolds : Unfolds [] layeredOverrides :=
    ⟨trivial, (unfoldsAt_obj_of_find? found _).2 ⟨noDot, trivial, trivial⟩, trivial⟩
  have there : Unfolds layeredDocument layeredOverrides :=
    Unfolds.of_covers _ _ _ unique.2 flat unfolds (covers_nil _)
  obtain ⟨same, agree⟩ := merge_expand_iff unique apart
  have read : (layeredDocument.merge layeredOverrides).1.get? "anim.noise.seed" = some (.int 7) := by
    simp [layeredDocument, layeredOverrides, merge, mergeMember, write, isPath, setPath_eq, set, setAt, objectAt,
      Dict.find?, Dict.put, get?, getAt?, Text.segments, Text.splitOn]
  refine ⟨unique, apart, there, same _ there, read, ?_⟩
  rw [← agree.2 ⟨flat, unfolds⟩ layeredDocument _ _ "anim.noise.seed", read]
  · simp [layeredDocument, Json.UniqueKeys, Json.UniqueKeysMembers]
  · simp [layeredDocument, Json.PlainKeys, Json.PlainKeysMembers]

def wholeOverrides : Document := [("a", .obj [("b.c", .int 1)])]

theorem dotted_keys_differ : ¬ ∀ doc overrides : Document, (Json.obj doc).UniqueKeys →
    (Json.obj doc).PlainKeys → (Json.obj overrides).UniqueKeys → Apart (ends overrides) → ∀ path,
    (doc.merge overrides).1.get? path = (doc.merge (expand overrides)).1.get? path := by
  intro agree
  have unique : (Json.obj wholeOverrides).UniqueKeys := by
    simp [wholeOverrides, Json.UniqueKeys, Json.UniqueKeysMembers]
  have alone : ends wholeOverrides = [(["a", "b", "c"], .int 1)] := by rfl
  have apart : Apart (ends wholeOverrides) := by
    rw [alone]
    exact List.pairwise_singleton _ _
  have path : Text.segments "a.b.c" = ["a", "b", "c"] := by decide
  have missed : (merge [] wholeOverrides).1.get? "a.b.c" = none := by
    rw [get?, path]
    rfl
  have found : (merge [] (expand wholeOverrides)).1.get? "a.b.c" = some (.int 1) := by
    rw [get?, path]
    exact getAt?_merge_expand_of_mem unique apart (alone ▸ List.mem_singleton.2 rfl)
  have same := agree [] wholeOverrides ⟨List.nodup_nil, trivial⟩ trivial unique apart "a.b.c"
  rw [missed, found] at same
  cases same

/-- The object at a dotted key takes the place of the one that is there. -/
example : (merge [("a", .obj [("b", .obj [("x", .int 1)])])] [("a.b", .obj [("y", .int 2)])]).1.getAt?
    ["a", "b", "x"] = none := rfl

end SettingsSweep.Document

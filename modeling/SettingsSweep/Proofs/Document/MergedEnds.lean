import SettingsSweep.Proofs.Document.Unfolding
import Mathlib.Data.List.Pairwise

/-!
What a merge reads, by the ends of its overrides. A path that leads to no end reads what it read before, so an end that
is read afterwards was put where it belongs. If all of them were, and no dotted key has an object, the overrides unfolded.
-/

set_option autoImplicit false

namespace SettingsSweep.Document

theorem apart_iff {writes : List (List String × Json)} :
    Apart writes ↔ writes.Pairwise fun e f => ¬ Overlap e.1 f.1 := List.pairwise_map

namespace Apart

theorem eq_of_overlap {writes : List (List String × Json)} (h : Apart writes)
    {e f : List String × Json} (he : e ∈ writes) (hf : f ∈ writes) (o : Overlap e.1 f.1) : e = f := by
  have symm : Std.Symm fun e f : List String × Json => ¬ Overlap e.1 f.1 :=
    ⟨fun _ _ beside o => beside o.symm⟩
  by_contra ne
  exact (apart_iff.1 h).forall he hf ne o

variable {members : Document} (h : Apart (ends members))

include h

theorem member {m : String × Json} (hm : m ∈ members) : Apart (memberEnds m.1 m.2) := by
  rw [apart_iff, ends_eq_flatMap, List.pairwise_flatMap] at h
  exact apart_iff.2 (h.1 m hm)

theorem not_overlap {m n : String × Json} (hm : m ∈ members) (hn : n ∈ members) (ne : m ≠ n)
    {e f : List String × Json} (he : e ∈ memberEnds m.1 m.2)
    (hf : f ∈ memberEnds n.1 n.2) : ¬ Overlap e.1 f.1 := by
  rw [apart_iff, ends_eq_flatMap, List.pairwise_flatMap] at h
  have symm : Std.Symm fun m n : String × Json => ∀ e ∈ memberEnds m.1 m.2,
      ∀ f ∈ memberEnds n.1 n.2, ¬ Overlap e.1 f.1 :=
    ⟨fun _ _ beside e he f hf o => beside f hf e he o.symm⟩
  exact h.2.forall hm hn ne e he f hf

end Apart

theorem Apart.below {key : String} {members : Document} (h : Apart (memberEnds key (.obj members))) :
    Apart (ends members) := by
  by_cases empty : members = []
  · rw [empty]
    exact List.Pairwise.nil
  · rw [memberEnds, endsOf_obj empty] at h
    refine apart_iff.2 ((List.pairwise_map.1 (apart_iff.1 h)).imp fun beside o => beside ?_)
    exact o.imp (List.prefix_append_right_inj _).2 (List.prefix_append_right_inj _).2

theorem cons_mem_memberEnds {key : String} (noDot : '.' ∉ key.toList) {members : Document}
    {e : List String × Json} (h : e ∈ ends members) : (key :: e.1, e.2) ∈ memberEnds key (.obj members) := by
  have lifted : under (Text.segments key) e ∈ memberEnds key (.obj members) :=
    under_mem_memberEnds (mem_endsOf_of_mem_ends h)
  rwa [Text.segments_of_notMem noDot] at lifted

theorem exists_memberEnd (key : String) (value : Json) :
    ∃ e ∈ memberEnds key value, Text.segments key <+: e.1 := by
  obtain ⟨f, hf⟩ := List.exists_mem_of_ne_nil _ (endsOf_ne_nil value)
  exact ⟨_, under_mem_memberEnds hf, List.prefix_append _ f.1⟩

theorem exists_end_of_getAt? {path : List String} (noDots : ∀ key ∈ path, '.' ∉ key.toList)
    {members : Document} {value : Json} (h : members.getAt? path = some value) :
    ∃ e ∈ ends members, path <+: e.1 := by
  induction path generalizing members with
  | nil => cases h
  | cons key keys ih =>
    obtain ⟨noDot, noDots⟩ := List.forall_mem_cons.1 noDots
    by_cases last : keys = []
    · subst last
      obtain ⟨e, he, leads⟩ := exists_memberEnd key value
      rw [Text.segments_of_notMem noDot] at leads
      exact ⟨e, mem_ends.2 ⟨_, Dict.mem_of_find? h, he⟩, leads⟩
    · obtain ⟨below, found, h⟩ := (getAt?_cons_eq_some last).1 h
      obtain ⟨e, he, leads⟩ := ih noDots h
      exact ⟨_, mem_ends.2 ⟨_, Dict.mem_of_find? found, cons_mem_memberEnds noDot he⟩,
        List.cons_prefix_cons.2 ⟨rfl, leads⟩⟩

theorem getAt?_of_setAt {path : List String} (noDots : ∀ key ∈ path, '.' ∉ key.toList) {key : String}
    {incoming value : Json} {doc : Document} (away : ∀ e ∈ memberEnds key incoming, ¬ path <+: e.1)
    (read : (doc.setAt (Text.segments key) incoming).getAt? path = some value) :
    doc.getAt? path = some value := by
  have ne := Text.segments_ne_nil key
  have short : ¬ path <+: Text.segments key := fun leads => by
    obtain ⟨e, he, further⟩ := exists_memberEnd key incoming
    exact away e he (leads.trans further)
  by_cases together : Overlap path (Text.segments key)
  · obtain ⟨rest, rfl⟩ := together.resolve_left short
    have further : rest ≠ [] := by
      rintro rfl
      exact short (by simp)
    rw [getAt?_append ne further, getAt?_setAt_self ne] at read
    obtain ⟨members, same, read⟩ := read
    obtain rfl := Option.some.inj same
    obtain ⟨e, he, leads⟩ := exists_end_of_getAt?
      (fun part hp => noDots part (List.mem_append_right _ hp)) read
    exact absurd ((List.prefix_append_right_inj _).2 leads)
      (away _ (under_mem_memberEnds (mem_endsOf_of_mem_ends he)))
  · rwa [getAt?_setAt_of_not_overlap together] at read

mutual

/-- A path that leads to no end of the overrides reads nothing that was not there before. -/
theorem getAt?_of_merge : ∀ (members : List (String × Json)) (doc : Document) (path : List String)
    (value : Json), (∀ key ∈ path, '.' ∉ key.toList) → (∀ e ∈ ends members, ¬ path <+: e.1) →
    (doc.merge members).1.getAt? path = some value → doc.getAt? path = some value
  | [], _, _, _, _, _, read => read
  | (key, incoming) :: members, doc, path, value, noDots, away, read => by
    obtain ⟨here, later⟩ := List.forall_mem_append.1 (ends_cons key incoming members ▸ away)
    have before := getAt?_of_merge members (doc.mergeMember key incoming).1 path value noDots later read
    exact getAt?_of_mergeMember incoming key doc path value noDots here before

theorem getAt?_of_mergeMember : ∀ (incoming : Json) (key : String) (doc : Document)
    (path : List String) (value : Json), (∀ key ∈ path, '.' ∉ key.toList) →
    (∀ e ∈ memberEnds key incoming, ¬ path <+: e.1) →
    (doc.mergeMember key incoming).1.getAt? path = some value → doc.getAt? path = some value
  | .obj incoming, key, doc, path, value, noDots, away, read => by
    by_cases both : ∃ existing, doc.find? key = some (.obj existing)
    · obtain ⟨existing, found⟩ := both
      rw [mergeMember_of_both found] at read
      by_cases head : path.head? = some key
      · -- The path goes into the merged object, below a key that has no dots as it is part of the path.
        obtain ⟨keys, rfl⟩ := List.head?_eq_some_iff.1 head
        obtain ⟨noDot, noDots⟩ := List.forall_mem_cons.1 noDots
        have further : keys ≠ [] := by
          rintro rfl
          obtain ⟨e, he, leads⟩ := exists_memberEnd key (.obj incoming)
          exact away e he (Text.segments_of_notMem noDot ▸ leads)
        rw [getAt?_cons key further, objectAt_put_self] at read
        rw [getAt?_cons key further, objectAt_of_find? found]
        refine getAt?_of_merge incoming existing keys value noDots (fun e he leads => ?_) read
        exact away _ (cons_mem_memberEnds noDot he) (List.cons_prefix_cons.2 ⟨rfl, leads⟩)
      · rwa [getAt?_put_of_head_ne head] at read
    · rw [mergeMember_of_not_both (.inr (not_exists.1 both))] at read
      exact getAt?_of_setAt noDots away read
  | .null, _, _, _, _, noDots, away, read | .bool _, _, _, _, _, noDots, away, read
  | .int _, _, _, _, _, noDots, away, read | .real _, _, _, _, _, noDots, away, read
  | .str _, _, _, _, _, noDots, away, read | .arr _, _, _, _, _, noDots, away, read => by
    rw [mergeMember_of_not_both (.inl rfl)] at read
    exact getAt?_of_setAt noDots away read

end

/-- An end of a dotted key is not read in the document as it stands: its path starts at another key, and leads to no end
    of that one. -/
theorem dot_notMem_of_read {members : Document} (unique : (Json.obj members).UniqueKeys)
    (apart : Apart (ends members)) {key : String} {value : Json} (hm : (key, value) ∈ members)
    {e : List String × Json} (he : e ∈ memberEnds key value) {other : Json}
    (read : members.getAt? e.1 = some other) : '.' ∉ key.toList := by
  intro dot
  have noDots := (isEnd_of_mem_ends members unique.2 e (mem_ends.2 ⟨_, hm, he⟩)).noDots
  obtain ⟨f, -, rfl⟩ := List.mem_map.1 he
  obtain ⟨first, steps, parts⟩ := List.exists_cons_of_ne_nil (Text.segments_ne_nil key)
  have path : (under (Text.segments key) f).1 = first :: (steps ++ f.1) := by
    rw [under, parts, List.cons_append]
  have ne : first ≠ key := by
    rintro rfl
    exact Text.dot_notMem_of_mem_segments (by rw [parts]; exact List.mem_cons_self) dot
  rw [path] at read noDots
  cases there : members.find? first with
  | none =>
    rw [getAt?_of_find?_eq_none there rfl] at read
    cases read
  | some old =>
    have alone : getAt? (first :: (steps ++ f.1)) [(first, old)] = some other := by
      have same : Dict.find? first [(first, old)] = members.find? first := by
        rw [there, Dict.find?, if_pos rfl]
      rw [getAt?_congr same, read]
    obtain ⟨e', he', leads⟩ := exists_end_of_getAt? noDots alone
    rw [ends_cons, ends, List.append_nil] at he'
    refine apart.not_overlap hm (Dict.mem_of_find? there) (fun same => ne (congrArg Prod.fst same).symm)
      he he' (.inl ?_)
    rwa [path]

/-- A document in which every end is read at the path that its keys spell has no dotted key. -/
theorem plainKeys_of_read (members : Document) (unique : (Json.obj members).UniqueKeys)
    (apart : Apart (ends members))
    (read : ∀ e ∈ ends members, ∃ value, members.getAt? e.1 = some value) :
    (Json.obj members).PlainKeys := by
  refine Json.plainKeys_obj_iff.2 fun member hm => ?_
  obtain ⟨key, value⟩ := member
  have found := (Dict.mem_iff_find? (Json.uniqueKeys_obj_iff.1 unique).1).1 hm
  have noDot : '.' ∉ key.toList := by
    obtain ⟨e, he, -⟩ := exists_memberEnd key value
    obtain ⟨other, reached⟩ := read e (mem_ends.2 ⟨_, hm, he⟩)
    exact dot_notMem_of_read unique apart hm he reached
  refine ⟨noDot, ?_⟩
  cases value with
  | obj below =>
    refine plainKeys_of_read below (uniqueKeys_of_find? unique found) (apart.member hm).below fun e he => ?_
    obtain ⟨other, reached⟩ := read _ (mem_ends.2 ⟨_, hm, cons_mem_memberEnds noDot he⟩)
    rw [getAt?_cons key (ne_nil_of_mem_ends he), objectAt_of_find? found] at reached
    exact ⟨other, reached⟩
  | _ => trivial
termination_by sizeOf (Json.obj members)
decreasing_by exact sizeOf_lt_of_find? found

mutual

/-- If a document has none of the ends and the merge has them all, the overrides unfolded. -/
theorem unfolds_of_read : ∀ (members : List (String × Json)) (doc : Document),
    Json.UniqueKeysMembers members → Json.FlatDotsMembers members → Apart (ends members) →
    (∀ e ∈ ends members, doc.getAt? e.1 = none) →
    (∀ e ∈ ends members, ∃ value, (doc.merge members).1.getAt? e.1 = some value) → Unfolds doc members
  | [], _, _, _, _, _, _ => trivial
  | (key, incoming) :: members, doc, unique, ⟨flat, below, rest⟩, apart, absent, read => by
    rw [ends_cons, apart_iff, List.pairwise_append] at apart
    obtain ⟨here, later, beside⟩ := apart
    rw [ends_cons, List.forall_mem_append] at absent read
    have noDots : ∀ e ∈ ends members, ∀ part ∈ e.1, '.' ∉ part.toList :=
      fun e he => (isEnd_of_mem_ends members unique.2 e he).noDots
    have noDotsHere : ∀ e ∈ memberEnds key incoming, ∀ part ∈ e.1, '.' ∉ part.toList :=
      fun e he => (isEnd_of_mem_memberEnds unique.1 he).noDots
    constructor
    · refine unfoldsAt_of_read incoming key doc unique.1 flat below (apart_iff.2 here) absent.1 ?_
      intro e he
      obtain ⟨value, found⟩ := read.1 e he
      refine ⟨value, getAt?_of_merge members _ e.1 value (noDotsHere e he) ?_ found⟩
      exact fun f hf leads => beside e he f hf (.inl leads)
    · refine unfolds_of_read members _ unique.2 rest (apart_iff.2 later) (fun e he => ?_) read.2
      cases found : (doc.mergeMember key incoming).1.getAt? e.1 with
      | none => rfl
      | some value =>
        have before := getAt?_of_mergeMember incoming key doc e.1 value (noDots e he)
          (fun f hf leads => beside f hf e he (.inr leads)) found
        rw [absent.2 e he] at before
        cases before

theorem unfoldsAt_of_read : ∀ (incoming : Json) (key : String) (doc : Document),
    incoming.UniqueKeys → ('.' ∈ key.toList → incoming.object? = none) → incoming.FlatDots →
    Apart (memberEnds key incoming) → (∀ e ∈ memberEnds key incoming, doc.getAt? e.1 = none) →
    (∀ e ∈ memberEnds key incoming, ∃ value, (doc.mergeMember key incoming).1.getAt? e.1 = some value) →
    UnfoldsAt doc key incoming
  | .obj incoming, key, doc, unique, flat, below, apart, absent, read => by
    have noDot : '.' ∉ key.toList := fun dot => by cases flat dot
    by_cases both : ∃ existing, doc.find? key = some (.obj existing)
    · obtain ⟨existing, found⟩ := both
      rw [mergeMember_of_both found] at read
      refine (unfoldsAt_obj_of_find? found incoming).2 ⟨noDot, ?_⟩
      refine unfolds_of_read incoming existing unique.2 below apart.below ?_ ?_
      · intro e he
        have none := absent _ (cons_mem_memberEnds noDot he)
        rwa [getAt?_cons key (ne_nil_of_mem_ends he), objectAt_of_find? found] at none
      · intro e he
        obtain ⟨value, reached⟩ := read _ (cons_mem_memberEnds noDot he)
        rw [getAt?_cons key (ne_nil_of_mem_ends he), objectAt_put_self] at reached
        exact ⟨value, reached⟩
    · have none := not_exists.1 both
      rw [mergeMember_of_not_both (.inr none), Text.segments_of_notMem noDot] at read
      refine (unfoldsAt_obj_of_not_object none incoming).2 ⟨?_, ?_⟩
      · refine plainKeys_of_read incoming unique apart.below fun e he => ?_
        obtain ⟨value, reached⟩ := read _ (cons_mem_memberEnds noDot he)
        rw [getAt?_cons key (ne_nil_of_mem_ends he)] at reached
        exact ⟨value, objectAt_put_self key incoming doc ▸ reached⟩
      · rw [Text.segments_of_notMem noDot]
        exact bind_object?_eq_none_iff.2 none
  | .null, _, _, _, _, _, _, _, _ | .bool _, _, _, _, _, _, _, _, _ | .int _, _, _, _, _, _, _, _, _
  | .real _, _, _, _, _, _, _, _, _ | .str _, _, _, _, _, _, _, _, _
  | .arr _, _, _, _, _, _, _, _, _ => trivial

end

end SettingsSweep.Document

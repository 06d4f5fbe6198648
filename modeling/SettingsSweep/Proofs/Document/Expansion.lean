import SettingsSweep.Proofs.Document.Ends
import Mathlib.Data.List.Induction

/-!
The expansion of a document: its ends, written into an empty one. Merging it lays the ends over the document that is
merged into, since overrides without dotted keys are merged key by key, each with what stood at the key before.
-/

set_option autoImplicit false

namespace SettingsSweep

namespace Dict

variable {α : Type}

theorem notMem_keys_of_nodup {before after : Dict α} {entry : String × α}
    (h : (Dict.keys (before ++ entry :: after)).Nodup) : entry.1 ∉ before.keys := by
  rw [keys, List.map_append, List.nodup_append] at h
  exact fun there => h.2.2 entry.1 there entry.1 (by simp) rfl

/-- A key that is there keeps its place, so it may be put before or after another one. -/
theorem put_comm {key other : String} {d : Dict α} (there : key ∈ d.keys) (ne : other ≠ key)
    (value new : α) : (d.put key value).put other new = (d.put other new).put key value := by
  induction d with
  | nil => cases there
  | cons entry d ih =>
    obtain ⟨first, old⟩ := entry
    by_cases here : first = key
    · subst here
      simp [put, Ne.symm ne]
    · have there : key ∈ Dict.keys d := (List.mem_cons.1 there).resolve_left (Ne.symm here)
      by_cases beside : first = other
      · subst beside
        simp [put, here]
      · simp [put, here, beside, ih there]

end Dict

namespace Document

theorem plainKeys_put {key : String} {value : Json} {doc : Document} (plain : (Json.obj doc).PlainKeys)
    (noDot : '.' ∉ key.toList) (h : value.PlainKeys) : (Json.obj (doc.put key value)).PlainKeys := by
  refine Json.plainKeys_obj_iff.2 fun member hm => ?_
  rcases Dict.mem_put hm with rfl | hm
  · exact ⟨noDot, h⟩
  · exact Json.plainKeys_obj_iff.1 plain member hm

theorem plainKeys_objectAt {doc : Document} (plain : (Json.obj doc).PlainKeys) (key : String) :
    (Json.obj (doc.objectAt key)).PlainKeys := by
  unfold objectAt
  split
  · next members found => exact plainKeys_of_find? plain found
  · trivial

theorem plainKeys_setAt {path : List String} {value : Json} {doc : Document}
    (plain : (Json.obj doc).PlainKeys) (noDots : ∀ key ∈ path, '.' ∉ key.toList)
    (h : value.PlainKeys) : (Json.obj (doc.setAt path value)).PlainKeys := by
  induction path generalizing doc with
  | nil => exact plain
  | cons key keys ih =>
    obtain ⟨noDot, noDots⟩ := List.forall_mem_cons.1 noDots
    by_cases last : keys = []
    · rw [last]
      exact plainKeys_put plain noDot h
    · rw [setAt_cons key last]
      exact plainKeys_put plain noDot (ih (plainKeys_objectAt plain key) noDots)

theorem merge_put_of_notMem {overrides : Document} (plain : ∀ member ∈ overrides, '.' ∉ member.1.toList)
    {key : String} (beside : key ∉ overrides.keys) {doc : Document} (there : key ∈ doc.keys)
    (value : Json) : (merge (doc.put key value) overrides).1 = (merge doc overrides).1.put key value := by
  rw [merge_eq_foldl, merge_eq_foldl]
  induction overrides generalizing doc with
  | nil => rfl
  | cons member overrides ih =>
    obtain ⟨noDot, plain⟩ := List.forall_mem_cons.1 plain
    obtain ⟨ne, beside⟩ := not_or.1 (List.mem_cons.not.1 beside)
    have still : key ∈ (doc.put member.1 (overlaid (doc.find? member.1) member.2)).keys := by
      rw [Dict.keys_put]
      split
      · exact there
      · exact List.mem_append_left _ there
    rw [List.foldl_cons, List.foldl_cons, mergeMember_eq noDot, mergeMember_eq noDot,
      Dict.find?_put_of_ne (Ne.symm ne), Dict.put_comm there (Ne.symm ne)]
    exact ih plain beside still

/-- A member put into the overrides is merged with what the document had before them. -/
theorem merge_put {overrides : Document} (unique : overrides.keys.Nodup)
    (plain : ∀ member ∈ overrides, '.' ∉ member.1.toList) {key : String} (noDot : '.' ∉ key.toList)
    (value : Json) (doc : Document) : (doc.merge (overrides.put key value)).1 =
      (doc.merge overrides).1.put key (overlaid (doc.find? key) value) := by
  induction overrides generalizing doc with
  | nil => exact mergeMember_eq noDot value doc
  | cons member overrides ih =>
    obtain ⟨first, old⟩ := member
    obtain ⟨firstPlain, plain⟩ := List.forall_mem_cons.1 plain
    obtain ⟨fresh, unique⟩ := List.nodup_cons.1 unique
    have unfold (v : Json) (rest : Document) : (doc.merge ((first, v) :: rest)).1 =
        (merge (doc.put first (overlaid (doc.find? first) v)) rest).1 := by
      rw [← mergeMember_eq firstPlain]
      rfl
    by_cases same : first = key
    · subst same
      have known (v : Json) : first ∈ (doc.put first v).keys := by
        rw [Dict.keys_put]
        split
        · assumption
        · simp
      calc (doc.merge (Dict.put first value ((first, old) :: overrides))).1
          = (merge (doc.put first (overlaid (doc.find? first) value)) overrides).1 := by
            rw [Dict.put, if_pos rfl, unfold]
        _ = (merge ((doc.put first (overlaid (doc.find? first) old)).put first
              (overlaid (doc.find? first) value)) overrides).1 := by rw [Dict.put_put]
        _ = (doc.merge ((first, old) :: overrides)).1.put first (overlaid (doc.find? first) value) := by
            rw [merge_put_of_notMem plain fresh (known _), unfold]
    · rw [Dict.put, if_neg same, unfold, unfold, ih unique plain,
        Dict.find?_put_of_ne (Ne.symm same)]

theorem merge_append {members : Document} (plain : ∀ member ∈ members, '.' ∉ member.1.toList)
    {doc : Document} (unique : (Dict.keys (doc ++ members)).Nodup) :
    (doc.merge members).1 = doc ++ members := by
  rw [merge_eq_foldl]
  induction members generalizing doc with
  | nil => exact (List.append_nil doc).symm
  | cons member members ih =>
    obtain ⟨noDot, plain⟩ := List.forall_mem_cons.1 plain
    have fresh := Dict.notMem_keys_of_nodup unique
    have alone : overlaid (doc.find? member.1) member.2 = member.2 := by
      rw [Dict.find?_eq_none_of_notMem fresh]
      exact overlaid_of_not_both (.inr (by simp))
    have rest := List.append_cons doc member members
    rw [List.foldl_cons, mergeMember_eq noDot, alone, Dict.put_of_notMem fresh, rest]
    exact ih plain (rest ▸ unique)

section

variable {overrides : Document} (unique : (Json.obj overrides).UniqueKeys)
  (plain : (Json.obj overrides).PlainKeys)

include unique plain

theorem overlaid_obj (doc : Document) (key : String) : overlaid (doc.find? key) (.obj overrides) =
    .obj (merge (doc.objectAt key) overrides).1 := by
  by_cases both : ∃ existing, doc.find? key = some (.obj existing)
  · obtain ⟨existing, there⟩ := both
    rw [objectAt_of_find? there, there]
    rfl
  · have whole : (merge [] overrides).1 = overrides :=
      merge_append (plain_keys plain) (Json.uniqueKeys_obj_iff.1 unique).1
    rw [overlaid_of_not_both (.inr (not_exists.1 both)), objectAt_eq_nil (not_exists.1 both), whole]

theorem objectAt_merge {key : String} (object : ∀ value, overrides.find? key = some value →
    value = .obj (overrides.objectAt key)) (doc : Document) : (doc.merge overrides).1.objectAt key =
      (merge (doc.objectAt key) (overrides.objectAt key)).1 := by
  cases found : overrides.find? key with
  | none =>
    have empty : overrides.objectAt key = [] := by rw [objectAt, found]
    rw [objectAt, find?_merge_of_none unique plain found, empty]
    rfl
  | some value =>
    refine objectAt_of_find? ?_
    rw [find?_merge_of_find? unique plain found, object value found]
    exact congrArg some
      (overlaid_obj (uniqueKeys_objectAt unique key) (plainKeys_objectAt plain key) doc key)

end

theorem writeAll_append (writes more : List (List String × Json)) (doc : Document) :
    doc.writeAll (writes ++ more) = (doc.writeAll writes).writeAll more := List.foldl_append

theorem uniqueKeys_plainKeys_writeAll {writes : List (List String × Json)}
    (h : ∀ e ∈ writes, IsEnd e) :
    (Json.obj (writeAll [] writes)).UniqueKeys ∧ (Json.obj (writeAll [] writes)).PlainKeys := by
  induction writes using List.reverseRecOn with
  | nil => exact ⟨⟨List.nodup_nil, trivial⟩, trivial⟩
  | append_singleton writes e ih =>
    obtain ⟨unique, plain⟩ := ih fun w hw => h w (List.mem_append_left _ hw)
    have last := h e (by simp)
    rw [writeAll_append]
    exact ⟨uniqueKeys_setAt unique last.unique, plainKeys_setAt plain last.noDots last.plain⟩

theorem clear_objectAt {key next : String} {keys : List String} {doc : Document}
    (clear : ∀ part, ¬ InTheWay (key :: next :: keys) doc part) :
    (∀ old, doc.find? key = some old → old = .obj (doc.objectAt key)) ∧
      ∀ part, ¬ InTheWay (next :: keys) (doc.objectAt key) part := by
  have object : ∀ old, doc.find? key = some old → old = .obj (doc.objectAt key) := by
    intro old found
    cases old with
    | obj members => rw [objectAt_of_find? found]
    | _ => exact absurd (inTheWay_cons.2 (.inl ⟨rfl, _, found, rfl⟩)) (clear [key])
  refine ⟨object, fun part way => ?_⟩
  cases found : doc.find? key with
  | none =>
    obtain ⟨-, -, value, read, -⟩ := way
    rw [objectAt, found, getAt?_nil_document] at read
    cases read
  | some old =>
    have found := found.trans (congrArg some (object old found))
    exact clear (key :: part) (inTheWay_cons.2 (.inr ⟨_, part, rfl, found, way⟩))

/-- What the overrides get at a new place is laid over the merge of what they had. -/
theorem merge_setAt {path : List String} {value : Json} (h : IsEnd (path, value)) (ne : path ≠ [])
    {overrides : Document} (unique : (Json.obj overrides).UniqueKeys)
    (plain : (Json.obj overrides).PlainKeys) (vacant : overrides.getAt? path = none)
    (clear : ∀ part, ¬ InTheWay path overrides part) (doc : Document) :
    (doc.merge (overrides.setAt path value)).1 = (doc.merge overrides).1.lay path value := by
  induction path generalizing overrides doc with
  | nil => exact absurd rfl ne
  | cons key keys ih =>
    obtain ⟨noDot, noDots⟩ := List.forall_mem_cons.1 h.noDots
    have put := merge_put (Json.uniqueKeys_obj_iff.1 unique).1 (plain_keys plain) noDot
    by_cases last : keys = []
    · subst last
      have kept : (doc.merge overrides).1.find? key = doc.find? key :=
        find?_merge_of_none unique plain vacant
      rw [lay, getAt?, kept]
      exact put value doc
    · obtain ⟨next, keys, rfl⟩ := List.exists_cons_of_ne_nil last
      have below : IsEnd (next :: keys, value) := ⟨noDots, h.bare, h.unique⟩
      have uniqueBelow := uniqueKeys_objectAt unique key
      have plainBelow := plainKeys_objectAt plain key
      obtain ⟨object, clearBelow⟩ := clear_objectAt clear
      have vacantBelow : (overrides.objectAt key).getAt? (next :: keys) = none := by
        rwa [← getAt?_cons key last]
      calc (doc.merge (overrides.setAt (key :: next :: keys) value)).1
          = (doc.merge overrides).1.put key
              (overlaid (doc.find? key) (.obj ((overrides.objectAt key).setAt (next :: keys) value))) := by
            rw [setAt_cons key last, put]
        _ = (doc.merge overrides).1.put key (.obj (((doc.merge overrides).1.objectAt key).lay
              (next :: keys) value)) := by
            rw [overlaid_obj (uniqueKeys_setAt uniqueBelow h.unique)
                (plainKeys_setAt plainBelow noDots h.plain),
              ih below last uniqueBelow plainBelow vacantBelow clearBelow,
              objectAt_merge unique plain object]
        _ = (doc.merge overrides).1.lay (key :: next :: keys) value := (lay_cons key last _ _).symm

/-- No path is another one or leads to it. -/
def Apart (writes : List (List String × Json)) : Prop :=
  (writes.map Prod.fst).Pairwise fun p q => ¬ Overlap p q

theorem vacant_writeAll {writes : List (List String × Json)} (apart : Apart writes)
    (reach : ∀ w ∈ writes, w.1 ≠ []) {path : List String} (away : ∀ w ∈ writes, ¬ Overlap w.1 path) :
    (writeAll [] writes).getAt? path = none ∧ ∀ part, ¬ InTheWay path (writeAll [] writes) part := by
  constructor
  · rw [getAt?_writeAll_of_not_overlap fun w hw o => away w hw o.symm, getAt?_nil_document]
  · rintro part ⟨leads, -, old, read, scalar⟩
    by_cases alone : ∀ w ∈ writes, ¬ Overlap part w.1
    · rw [getAt?_writeAll_of_not_overlap alone, getAt?_nil_document] at read
      cases read
    · obtain ⟨w, hw, together⟩ : ∃ w ∈ writes, Overlap part w.1 := by simpa using alone
      rcases together with ⟨rest, further⟩ | back
      · -- The part leads to a value that was written, so it holds an object unless it is the whole.
        by_cases whole : rest = []
        · rw [whole, List.append_nil] at further
          exact away w hw (.inl (further ▸ leads))
        · have reached : part ≠ [] := fun none => by rw [none] at read; cases read
          have written := getAt?_writeAll_of_mem apart hw (reach w hw) []
          rw [← further, getAt?_append reached whole] at written
          obtain ⟨members, object, -⟩ := written
          rw [Option.some.inj (read.symm.trans object)] at scalar
          cases scalar
      · exact away w hw (.inl (back.trans leads))

/-- Merging what was written beside one another lays it down piece by piece. -/
theorem merge_writeAll {writes : List (List String × Json)} (h : ∀ e ∈ writes, IsEnd e ∧ e.1 ≠ [])
    (apart : Apart writes) (doc : Document) :
    (doc.merge (writeAll [] writes)).1 = doc.layAll writes := by
  induction writes using List.reverseRecOn with
  | nil => rfl
  | append_singleton writes e ih =>
    rw [Apart, List.map_append, List.pairwise_append] at apart
    obtain ⟨apart, -, beside⟩ := apart
    have before : ∀ w ∈ writes, IsEnd w ∧ w.1 ≠ [] := fun w hw => h w (List.mem_append_left _ hw)
    obtain ⟨isEnd, ne⟩ := h e (by simp)
    have away : ∀ w ∈ writes, ¬ Overlap w.1 e.1 :=
      fun w hw => beside w.1 (List.mem_map_of_mem hw) e.1 (by simp)
    obtain ⟨unique, plain⟩ := uniqueKeys_plainKeys_writeAll fun w hw => (before w hw).1
    obtain ⟨vacant, clear⟩ := vacant_writeAll apart (fun w hw => (before w hw).2) away
    have laid := merge_setAt isEnd ne unique plain vacant clear doc
    rw [ih before apart] at laid
    rw [writeAll_append, layAll_append]
    exact laid

/-- The document with each dotted key spelled out as objects in objects. -/
def expand (doc : Document) : Document := writeAll [] (ends doc)

theorem merge_expand {overrides : Document} (unique : (Json.obj overrides).UniqueKeys)
    (apart : Apart (ends overrides)) (doc : Document) :
    (doc.merge (expand overrides)).1 = doc.layAll (ends overrides) :=
  merge_writeAll (areEnds_of_uniqueKeys unique) apart doc

end Document

end SettingsSweep

import SettingsSweep.Proofs.Document.Lens
import SettingsSweep.Proofs.Document.Merge
import SettingsSweep.Proofs.Document.Targets

/-!
Merging as an overlay, for overrides without dots in their keys. Each path tells whose value it shows: that of the
overrides where they have one, that of the document where a path steps off the overrides, and where both have an object
their merge. A second merge of the same overrides finds everything in place.
-/

set_option autoImplicit false

namespace SettingsSweep

theorem Dict.put_of_find? {α : Type} {key : String} {value : α} {d : Dict α}
    (h : d.find? key = some value) : d.put key value = d := by
  induction d with
  | nil => cases h
  | cons entry d ih =>
    obtain ⟨k, v⟩ := entry
    rw [find?] at h
    rw [put]
    split at h
    · next same => rw [if_pos same, Option.some.inj h, same]
    · next ne => rw [if_neg ne, ih h]

namespace Json

mutual

def PlainKeys : Json → Prop
  | .obj members => PlainKeysMembers members
  | _ => True

def PlainKeysMembers : List (String × Json) → Prop
  | [] => True
  | (key, value) :: members => '.' ∉ key.toList ∧ PlainKeys value ∧ PlainKeysMembers members

end

theorem plainKeys_obj_iff {members : Document} : (obj members).PlainKeys ↔
    ∀ member ∈ members, '.' ∉ member.1.toList ∧ member.2.PlainKeys := by
  rw [PlainKeys]
  induction members with
  | nil => simp [PlainKeysMembers]
  | cons member members ih =>
    rw [PlainKeysMembers, ih, List.forall_mem_cons, and_assoc]

end Json

namespace Document

/-- What stands at a key once a member of overrides is merged with what stood there. -/
def overlaid (current : Option Json) : Json → Json
  | .obj incoming =>
    match current with
    | some (.obj existing) => .obj (merge existing incoming).1
    | _ => .obj incoming
  | value => value

theorem overlaid_of_not_both {current : Option Json} {value : Json}
    (h : value.object? = none ∨ ∀ existing, current ≠ some (.obj existing)) :
    overlaid current value = value := by
  cases value with
  | obj incoming =>
    rw [overlaid]
    exact h.resolve_left (by simp [Json.object?])
  | _ => rfl

theorem write_of_notMem {key : String} (plain : '.' ∉ key.toList) (value : Json) (doc : Document) :
    doc.write key value = (doc.put key value, []) := by
  rw [write, isPath, decide_eq_false plain]
  rfl

theorem mergeMember_eq {key : String} (plain : '.' ∉ key.toList) (value : Json) (doc : Document) :
    (doc.mergeMember key value).1 = doc.put key (overlaid (doc.find? key) value) := by
  cases value with
  | obj incoming =>
    rw [mergeMember]
    split
    · next existing found =>
      rw [found]
      rfl
    · next other => rw [overlaid_of_not_both (.inr other), write_of_notMem plain]
  | _ => exact congrArg Prod.fst (write_of_notMem plain _ doc)

mutual

theorem merge_warnings : ∀ (overrides : List (String × Json)) (doc : Document),
    Json.PlainKeysMembers overrides → (doc.merge overrides).2 = []
  | [], _, _ => rfl
  | (key, value) :: overrides, doc, plain => by
    obtain ⟨noDot, below, rest⟩ := plain
    rw [merge]
    simp only [mergeMember_warnings value key doc noDot below, merge_warnings overrides _ rest,
      List.append_nil]

theorem mergeMember_warnings : ∀ (value : Json) (key : String) (doc : Document),
    '.' ∉ key.toList → value.PlainKeys → (doc.mergeMember key value).2 = []
  | .obj incoming, key, doc, noDot, plain => by
    rw [mergeMember]
    split
    · next existing _ => exact merge_warnings incoming existing plain
    · rw [write_of_notMem noDot]
  | .null, key, doc, noDot, _ | .bool _, key, doc, noDot, _ | .int _, key, doc, noDot, _
  | .real _, key, doc, noDot, _ | .str _, key, doc, noDot, _ | .arr _, key, doc, noDot, _ =>
    congrArg Prod.snd (write_of_notMem noDot _ doc)

end

section

variable {overrides : Document} (unique : overrides.keys.Nodup)
  (plain : ∀ member ∈ overrides, '.' ∉ member.1.toList)

include unique plain

/-- Each key of the overrides is merged once, with what stood there before. -/
theorem find?_merge (doc : Document) (key : String) : (doc.merge overrides).1.find? key =
    match overrides.find? key with
    | none => doc.find? key
    | some value => some (overlaid (doc.find? key) value) := by
  rw [merge_eq_foldl]
  induction overrides generalizing doc with
  | nil => rfl
  | cons member overrides ih =>
    obtain ⟨first, value⟩ := member
    obtain ⟨noDot, rest⟩ := List.forall_mem_cons.1 plain
    obtain ⟨fresh, unique⟩ := List.nodup_cons.1 unique
    rw [List.foldl_cons, ih unique rest, mergeMember_eq noDot, Dict.find?]
    by_cases same : first = key
    · subst same
      have once : Dict.find? first overrides = none := by
        cases found : Dict.find? first overrides with
        | none => rfl
        | some other => exact absurd (List.mem_map.2 ⟨_, Dict.mem_of_find? found, rfl⟩) fresh
      rw [once, if_pos rfl]
      exact Dict.find?_put_self first _ doc
    · rw [if_neg same, Dict.find?_put_of_ne (Ne.symm same)]

/-- The keys of the document keep their places, new ones follow in the order of the overrides. -/
theorem keys_merge (doc : Document) : (doc.merge overrides).1.keys =
    doc.keys ++ overrides.keys.filter (· ∉ doc.keys) := by
  rw [merge_eq_foldl]
  induction overrides generalizing doc with
  | nil => exact (List.append_nil _).symm
  | cons member overrides ih =>
    obtain ⟨first, value⟩ := member
    obtain ⟨noDot, rest⟩ := List.forall_mem_cons.1 plain
    obtain ⟨fresh, unique⟩ := List.nodup_cons.1 unique
    have keys : Dict.keys ((first, value) :: overrides) = first :: Dict.keys overrides := rfl
    rw [List.foldl_cons, ih unique rest, mergeMember_eq noDot, Dict.keys_put, keys]
    by_cases known : first ∈ doc.keys
    · rw [if_pos known, List.filter_cons_of_neg (by simpa using known)]
    · rw [if_neg known, List.filter_cons_of_pos (by simpa using known), List.append_assoc]
      congr 1
      refine congrArg (first :: ·) (List.filter_congr fun key hk => ?_)
      have ne : key ≠ first := fun same => fresh (same ▸ hk)
      simp [ne]

end

theorem merge_eq_self {overrides doc : Document} (plain : ∀ member ∈ overrides, '.' ∉ member.1.toList)
    (settled : ∀ member ∈ overrides, ∃ value, doc.find? member.1 = some value ∧
      overlaid (some value) member.2 = value) : (doc.merge overrides).1 = doc := by
  rw [merge_eq_foldl]
  induction overrides with
  | nil => rfl
  | cons member overrides ih =>
    obtain ⟨noDot, plain⟩ := List.forall_mem_cons.1 plain
    obtain ⟨⟨value, found, same⟩, settled⟩ := List.forall_mem_cons.1 settled
    rw [List.foldl_cons, mergeMember_eq noDot, found, same, Dict.put_of_find? found]
    exact ih plain settled

mutual

theorem overlaid_overlaid : ∀ value : Json, value.UniqueKeys → value.PlainKeys → ∀ current,
    overlaid (some (overlaid current value)) value = overlaid current value
  | .obj incoming, unique, plain, current => by
    have nodup := (Json.uniqueKeys_obj_iff.1 unique).1
    have noDots : ∀ member ∈ incoming, '.' ∉ member.1.toList :=
      fun member hm => (Json.plainKeys_obj_iff.1 plain member hm).1
    have members := overlaid_overlaid_members incoming unique.2 plain
    by_cases both : ∃ existing, current = some (.obj existing)
    · obtain ⟨existing, rfl⟩ := both
      refine congrArg Json.obj (merge_eq_self noDots fun member hm => ?_)
      refine ⟨_, ?_, members member hm (Dict.find? member.1 existing)⟩
      rw [find?_merge nodup noDots, (Dict.mem_iff_find? nodup).1 hm]
    · rw [overlaid_of_not_both (.inr fun existing h => both ⟨existing, h⟩)]
      refine congrArg Json.obj (merge_eq_self noDots fun member hm => ?_)
      have alone : overlaid none member.2 = member.2 := overlaid_of_not_both (.inr (by simp))
      refine ⟨member.2, (Dict.mem_iff_find? nodup).1 hm, ?_⟩
      have again := members member hm none
      rwa [alone] at again
  | .null, _, _, _ | .bool _, _, _, _ | .int _, _, _, _ | .real _, _, _, _ | .str _, _, _, _
  | .arr _, _, _, _ => rfl

theorem overlaid_overlaid_members : ∀ members : List (String × Json),
    Json.UniqueKeysMembers members → Json.PlainKeysMembers members → ∀ member ∈ members, ∀ current,
    overlaid (some (overlaid current member.2)) member.2 = overlaid current member.2
  | [], _, _, member, hm => absurd hm List.not_mem_nil
  | (key, value) :: members, unique, plain, member, hm => by
    rcases List.mem_cons.1 hm with rfl | hm
    · exact overlaid_overlaid value unique.1 plain.2.1
    · exact overlaid_overlaid_members members unique.2 plain.2.2 member hm

end

/-- The path leaves the overrides at a key that they do not have, and down to there both hold objects. -/
inductive StepsOff : Document → Document → List String → Prop
  | here {overrides doc : Document} {key : String} (keys : List String)
      (absent : overrides.find? key = none) : StepsOff overrides doc (key :: keys)
  | further {overrides doc incoming existing : Document} {key : String} {keys : List String}
      (new : overrides.find? key = some (.obj incoming)) (old : doc.find? key = some (.obj existing))
      (next : StepsOff incoming existing keys) : StepsOff overrides doc (key :: keys)

theorem StepsOff.ne_nil {overrides doc : Document} {keys : List String}
    (h : StepsOff overrides doc keys) : keys ≠ [] := by
  cases h <;> exact List.cons_ne_nil _ _

section

variable {overrides doc : Document}

theorem plain_keys (plain : (Json.obj overrides).PlainKeys) :
    ∀ member ∈ overrides, '.' ∉ member.1.toList :=
  fun member hm => (Json.plainKeys_obj_iff.1 plain member hm).1

theorem plainKeys_of_find? (plain : (Json.obj overrides).PlainKeys) {key : String} {value : Json}
    (h : overrides.find? key = some value) : value.PlainKeys :=
  (Json.plainKeys_obj_iff.1 plain _ (Dict.mem_of_find? h)).2

theorem uniqueKeys_of_find? (unique : (Json.obj overrides).UniqueKeys) {key : String} {value : Json}
    (h : overrides.find? key = some value) : value.UniqueKeys :=
  (Json.uniqueKeys_obj_iff.1 unique).2 _ (Dict.mem_of_find? h)

theorem dot_notMem_of_getAt? (plain : (Json.obj overrides).PlainKeys) {keys : List String}
    {value : Json} (h : overrides.getAt? keys = some value) : ∀ key ∈ keys, '.' ∉ key.toList := by
  induction keys generalizing overrides with
  | nil => cases h
  | cons first keys ih =>
    by_cases last : keys = []
    · subst last
      exact List.forall_mem_singleton.2 (plain_keys plain _ (Dict.mem_of_find? h))
    · obtain ⟨incoming, found, h⟩ := (getAt?_cons_eq_some last).1 h
      refine List.forall_mem_cons.2 ⟨plain_keys plain _ (Dict.mem_of_find? found), ?_⟩
      exact ih (plainKeys_of_find? plain found) h

variable (unique : (Json.obj overrides).UniqueKeys) (plain : (Json.obj overrides).PlainKeys)

include unique plain

theorem find?_merge_of_find? {key : String} {value : Json} (h : overrides.find? key = some value) :
    (doc.merge overrides).1.find? key = some (overlaid (doc.find? key) value) := by
  rw [find?_merge (Json.uniqueKeys_obj_iff.1 unique).1 (plain_keys plain), h]

theorem find?_merge_of_none {key : String} (h : overrides.find? key = none) :
    (doc.merge overrides).1.find? key = doc.find? key := by
  rw [find?_merge (Json.uniqueKeys_obj_iff.1 unique).1 (plain_keys plain), h]

theorem getAt?_merge_of_not_both {keys : List String} {value : Json}
    (h : overrides.getAt? keys = some value)
    (apart : value.object? = none ∨ ∀ existing, doc.getAt? keys ≠ some (.obj existing)) :
    (doc.merge overrides).1.getAt? keys = some value := by
  induction keys generalizing overrides doc with
  | nil => cases h
  | cons key keys ih =>
    by_cases last : keys = []
    · subst last
      have merged : (doc.merge overrides).1.find? key = some (overlaid (doc.find? key) value) :=
        find?_merge_of_find? unique plain h
      exact merged.trans (congrArg some (overlaid_of_not_both apart))
    · obtain ⟨incoming, found, h⟩ := (getAt?_cons_eq_some last).1 h
      rw [getAt?_cons_eq_some last, find?_merge_of_find? unique plain found]
      by_cases both : ∃ existing, doc.find? key = some (.obj existing)
      · obtain ⟨existing, there⟩ := both
        refine ⟨(merge existing incoming).1, by rw [there]; rfl, ?_⟩
        refine ih (uniqueKeys_of_find? unique found) (plainKeys_of_find? plain found) h ?_
        refine apart.imp_right fun none members read => none members ?_
        exact (getAt?_cons_eq_some last).2 ⟨existing, there, read⟩
      · refine ⟨incoming, ?_, h⟩
        rw [overlaid_of_not_both (.inr fun existing there => both ⟨existing, there⟩)]

theorem getAt?_merge_of_stepsOff {keys : List String} (h : StepsOff overrides doc keys) :
    (doc.merge overrides).1.getAt? keys = doc.getAt? keys := by
  induction h with
  | here keys absent => exact getAt?_congr (find?_merge_of_none unique plain absent) keys
  | @further overrides doc incoming existing key keys new old next ih =>
    have merged : (doc.merge overrides).1.find? key = some (.obj (merge existing incoming).1) := by
      rw [find?_merge_of_find? unique plain new, old]
      rfl
    rw [getAt?_cons key next.ne_nil, getAt?_cons key next.ne_nil, objectAt, objectAt, merged, old]
    exact ih (uniqueKeys_of_find? unique new) (plainKeys_of_find? plain new)

/-- Where both hold objects, their merge is found, with the keys of the document first. -/
theorem membersAt?_merge {keys : List String} {existing incoming : Document}
    (old : doc.membersAt? keys = some existing) (new : overrides.membersAt? keys = some incoming) :
    (doc.merge overrides).1.membersAt? keys = some (merge existing incoming).1 ∧
      (merge existing incoming).1.keys =
        existing.keys ++ incoming.keys.filter (· ∉ existing.keys) := by
  induction keys generalizing overrides doc with
  | nil =>
    obtain rfl := Option.some.inj old
    obtain rfl := Option.some.inj new
    exact ⟨rfl, keys_merge (Json.uniqueKeys_obj_iff.1 unique).1 (plain_keys plain) doc⟩
  | cons key keys ih =>
    obtain ⟨below, there, old⟩ := membersAt?_cons_eq_some.1 old
    obtain ⟨below', found, new⟩ := membersAt?_cons_eq_some.1 new
    have merged : (doc.merge overrides).1.find? key = some (.obj (merge below below').1) := by
      rw [find?_merge_of_find? unique plain found, there]
      rfl
    obtain ⟨reached, order⟩ :=
      ih (uniqueKeys_of_find? unique found) (plainKeys_of_find? plain found) old new
    exact ⟨membersAt?_cons_eq_some.2 ⟨_, merged, reached⟩, order⟩

/-- Whatever is read after a merge comes from the overrides, from the document, or is a merge of the two. -/
theorem getAt?_merge_cases {keys : List String} {value : Json}
    (h : (doc.merge overrides).1.getAt? keys = some value) :
    overrides.getAt? keys = some value ∨
    StepsOff overrides doc keys ∧ doc.getAt? keys = some value ∨
    ∃ existing incoming, doc.getAt? keys = some (.obj existing) ∧
      overrides.getAt? keys = some (.obj incoming) ∧ value = .obj (merge existing incoming).1 := by
  induction keys generalizing overrides doc with
  | nil => cases h
  | cons key keys ih =>
    cases found : overrides.find? key with
    | none =>
      rw [getAt?_congr (find?_merge_of_none unique plain found)] at h
      exact .inr (.inl ⟨.here keys found, h⟩)
    | some incoming =>
      have merged : (doc.merge overrides).1.find? key = some (overlaid (doc.find? key) incoming) :=
        find?_merge_of_find? unique plain found
      by_cases both : incoming.object? = none ∨ ∀ existing, doc.find? key ≠ some (.obj existing)
      · -- The member of the overrides is taken whole, and the path goes on in it.
        rw [overlaid_of_not_both both, ← found] at merged
        exact .inl (getAt?_congr merged keys ▸ h)
      · obtain ⟨object, there⟩ := not_or.1 both
        obtain ⟨existing, there⟩ := not_forall_not.1 there
        cases incoming with
        | obj members =>
          rw [there] at merged
          by_cases last : keys = []
          · subst last
            refine .inr (.inr ⟨existing, members, there, found, ?_⟩)
            exact Option.some.inj (h.symm.trans merged)
          · obtain ⟨inner, reached, h⟩ := (getAt?_cons_eq_some last).1 h
            obtain rfl := Json.obj.inj (Option.some.inj (merged.symm.trans reached))
            have lift {doc' members' : Document} {v : Json} (at_key : doc'.find? key = some (.obj members'))
                (read : members'.getAt? keys = some v) : doc'.getAt? (key :: keys) = some v :=
              (getAt?_cons_eq_some last).2 ⟨_, at_key, read⟩
            rcases ih (uniqueKeys_of_find? unique found) (plainKeys_of_find? plain found) h with
              new | ⟨off, old⟩ | ⟨e, i, old, new, same⟩
            · exact .inl (lift found new)
            · exact .inr (.inl ⟨.further found there off, lift there old⟩)
            · exact .inr (.inr ⟨e, i, lift there old, lift found new, same⟩)
        | _ => exact absurd rfl object

end

/-- Merging overrides lays them over the document at every depth: their values win, what they do not have stays, and
    there is nothing else. -/
theorem merge_overlays {overrides : Document} (unique : (Json.obj overrides).UniqueKeys)
    (plain : (Json.obj overrides).PlainKeys) (doc : Document) :
    (doc.merge overrides).2 = [] ∧
    (∀ keys leaf, overrides.getAt? keys = some leaf → leaf.object? = none →
      (doc.merge overrides).1.get? (Text.ofSegments keys) = some leaf) ∧
    (∀ keys, StepsOff overrides doc keys →
      (doc.merge overrides).1.getAt? keys = doc.getAt? keys) ∧
    (∀ keys members, overrides.getAt? keys = some (.obj members) →
      (∀ existing, doc.getAt? keys ≠ some (.obj existing)) →
      (doc.merge overrides).1.getAt? keys = some (.obj members)) ∧
    (∀ keys value, (doc.merge overrides).1.getAt? keys = some value →
      overrides.getAt? keys = some value ∨
      StepsOff overrides doc keys ∧ doc.getAt? keys = some value ∨
      ∃ existing incoming, doc.getAt? keys = some (.obj existing) ∧
        overrides.getAt? keys = some (.obj incoming) ∧ value = .obj (merge existing incoming).1) ∧
    (∀ keys existing incoming, doc.membersAt? keys = some existing →
      overrides.membersAt? keys = some incoming →
      (doc.merge overrides).1.membersAt? keys = some (merge existing incoming).1 ∧
        (merge existing incoming).1.keys =
          existing.keys ++ incoming.keys.filter (· ∉ existing.keys)) ∧
    (doc.merge overrides).1.merge overrides = ((doc.merge overrides).1, []) := by
  have quiet (d : Document) : (d.merge overrides).2 = [] := merge_warnings overrides d plain
  refine ⟨quiet doc, ?_, ?_, ?_, ?_, ?_, Prod.ext ?_ (quiet _)⟩
  · intro keys leaf read scalar
    have ne : keys ≠ [] := fun none => by rw [none] at read; cases read
    rw [get?, Text.segments_ofSegments ne (dot_notMem_of_getAt? plain read)]
    exact getAt?_merge_of_not_both unique plain read (.inl scalar)
  · exact fun keys off => getAt?_merge_of_stepsOff unique plain off
  · exact fun keys members read apart => getAt?_merge_of_not_both unique plain read (.inr apart)
  · exact fun keys value read => getAt?_merge_cases unique plain read
  · exact fun keys existing incoming old new => membersAt?_merge unique plain old new
  · refine merge_eq_self (plain_keys plain) fun member hm => ?_
    have found := (Dict.mem_iff_find? (Json.uniqueKeys_obj_iff.1 unique).1).1 hm
    exact ⟨_, find?_merge_of_find? unique plain found, overlaid_overlaid member.2
      (uniqueKeys_of_find? unique found) (plainKeys_of_find? plain found) _⟩

def animatedDocument : Document :=
  [("anim", .obj [("zoom", .int 1), ("noise", .obj [("seed", .int 2)])]), ("steps", .int 5)]

def animatedOverrides : Document :=
  [("steps", .obj [("low", .int 1)]), ("anim", .obj [("blur", .arr []), ("noise", .obj [("seed", .null)])])]

theorem merge_overlays_animated : (Json.obj animatedOverrides).UniqueKeys ∧
    (Json.obj animatedOverrides).PlainKeys ∧
    (animatedDocument.merge animatedOverrides).1.get? "anim.noise.seed" = some .null ∧
    (animatedDocument.merge animatedOverrides).1.getAt? ["anim", "zoom"] = some (.int 1) ∧
    (animatedDocument.merge animatedOverrides).1.getAt? ["steps"] = some (.obj [("low", .int 1)]) ∧
    ∃ merged, (animatedDocument.merge animatedOverrides).1.membersAt? ["anim"] = some merged ∧
      merged.keys = ["zoom", "noise", "blur"] := by
  have unique : (Json.obj animatedOverrides).UniqueKeys := by
    simp [animatedOverrides, Json.UniqueKeys, Json.UniqueKeysMembers, Json.UniqueKeysItems]
  have plain : (Json.obj animatedOverrides).PlainKeys := by
    simp [animatedOverrides, Json.PlainKeys, Json.PlainKeysMembers]
  obtain ⟨-, leaf, off, whole, -, keys, -⟩ := merge_overlays unique plain animatedDocument
  have name : Text.ofSegments ["anim", "noise", "seed"] = "anim.noise.seed" := by decide
  obtain ⟨there, order⟩ := keys ["anim"] _ _ rfl rfl
  refine ⟨unique, plain, name ▸ leaf _ _ rfl rfl, off _ (.further rfl rfl (.here [] rfl)),
    whole _ _ rfl ?_, _, there, order⟩
  intro existing h
  cases h

end Document

end SettingsSweep

import SettingsSweep.Proofs.Document.Expansion

/-!
When a merge follows the dotted keys of the overrides at every depth. Members that meet an object are merged with it one
by one; what is put in whole is not looked into, so there it must have no dotted key and no object to merge with. Then
the merge lays down the ends of the overrides, and a document with more objects takes nothing from that.
-/

set_option autoImplicit false

namespace SettingsSweep

namespace Json

mutual

/-- No dotted key has an object, at any depth of objects. -/
def FlatDots : Json → Prop
  | .obj members => FlatDotsMembers members
  | _ => True

def FlatDotsMembers : List (String × Json) → Prop
  | [] => True
  | (key, value) :: members =>
    ('.' ∈ key.toList → value.object? = none) ∧ FlatDots value ∧ FlatDotsMembers members

end

theorem flatDots_obj_iff {members : Document} : (obj members).FlatDots ↔
    ∀ member ∈ members, ('.' ∈ member.1.toList → member.2.object? = none) ∧ member.2.FlatDots := by
  rw [FlatDots]
  induction members with
  | nil => simp [FlatDotsMembers]
  | cons member members ih =>
    rw [FlatDotsMembers, ih, List.forall_mem_cons, and_assoc]

end Json

namespace Document

mutual

/-- Each member, at its turn, either goes into an object or is put in whole, and what is put in whole has no dotted key
    and takes the place of no object. -/
def Unfolds (doc : Document) : List (String × Json) → Prop
  | [] => True
  | (key, value) :: members => UnfoldsAt doc key value ∧ Unfolds (doc.mergeMember key value).1 members

def UnfoldsAt (doc : Document) (key : String) : Json → Prop
  | .obj incoming =>
    match doc.find? key with
    | some (.obj existing) => '.' ∉ key.toList ∧ Unfolds existing incoming
    | _ =>
      Json.PlainKeysMembers incoming ∧ (doc.getAt? (Text.segments key)).bind Json.object? = none
  | _ => True

end

theorem unfoldsAt_obj_of_find? {key : String} {doc existing : Document}
    (h : doc.find? key = some (.obj existing)) (incoming : Document) :
    UnfoldsAt doc key (.obj incoming) ↔ '.' ∉ key.toList ∧ Unfolds existing incoming := by
  rw [UnfoldsAt, h]

theorem unfoldsAt_obj_of_not_object {key : String} {doc : Document}
    (h : ∀ existing, doc.find? key ≠ some (.obj existing)) (incoming : Document) :
    UnfoldsAt doc key (.obj incoming) ↔ Json.PlainKeysMembers incoming ∧
      (doc.getAt? (Text.segments key)).bind Json.object? = none := by
  rw [UnfoldsAt]
  split
  · next existing found => exact absurd found (h existing)
  · rfl

theorem bind_object?_eq_none_iff {value : Option Json} :
    value.bind Json.object? = none ↔ ∀ members, value ≠ some (.obj members) := by
  cases value with
  | none => simp
  | some value => cases value <;> simp [Json.object?]

theorem write_eq_setAt (key : String) (value : Json) (doc : Document) :
    (doc.write key value).1 = doc.setAt (Text.segments key) value := by
  unfold write
  split
  · rw [setPath_eq]
    rfl
  · next plain =>
    rw [isPath, decide_eq_true_eq] at plain
    rw [Text.segments_of_notMem plain]
    rfl

theorem mergeMember_of_not_both {key : String} {value : Json} {doc : Document}
    (h : value.object? = none ∨ ∀ existing, doc.find? key ≠ some (.obj existing)) :
    (doc.mergeMember key value).1 = doc.setAt (Text.segments key) value := by
  rw [← write_eq_setAt]
  cases value with
  | obj incoming =>
    rw [mergeMember]
    split
    · next existing found => exact absurd found (h.resolve_left (by simp [Json.object?]) existing)
    · rfl
  | _ => rfl

theorem mergeMember_of_both {key : String} {doc existing : Document}
    (h : doc.find? key = some (.obj existing)) (incoming : Document) :
    (doc.mergeMember key (.obj incoming)).1 = doc.put key (.obj (existing.merge incoming).1) := by
  rw [mergeMember, h]

theorem mergeMember_cases (key : String) (value : Json) (doc : Document) :
    (∃ incoming existing : Document, value = .obj incoming ∧ doc.find? key = some (.obj existing) ∧
      (doc.mergeMember key value).1 = doc.put key (.obj (existing.merge incoming).1)) ∨
    (doc.mergeMember key value).1 = doc.setAt (Text.segments key) value := by
  cases value with
  | obj incoming =>
    by_cases both : ∃ existing, doc.find? key = some (.obj existing)
    · obtain ⟨existing, found⟩ := both
      exact .inl ⟨incoming, existing, rfl, found, mergeMember_of_both found incoming⟩
    · exact .inr (mergeMember_of_not_both (.inr (not_exists.1 both)))
  | _ => exact .inr (mergeMember_of_not_both (.inl rfl))

theorem layAll_memberEnds_of_bare {key : String} {value : Json} {doc : Document}
    (bare : endsOf value = [([], value)])
    (h : value.object? = none ∨ (doc.getAt? (Text.segments key)).bind Json.object? = none) :
    doc.layAll (memberEnds key value) = doc.setAt (Text.segments key) value := by
  rw [← lay_of_not_both h]
  simp [memberEnds, bare, layAll, under]

mutual

theorem unfolds_of_plain : ∀ (members : List (String × Json)) (doc : Document),
    Json.PlainKeysMembers members → Unfolds doc members
  | [], _, _ => trivial
  | (key, value) :: members, doc, plain =>
    ⟨unfoldsAt_of_plain value key doc plain.1 plain.2.1, unfolds_of_plain members _ plain.2.2⟩

theorem unfoldsAt_of_plain : ∀ (value : Json) (key : String) (doc : Document),
    '.' ∉ key.toList → value.PlainKeys → UnfoldsAt doc key value
  | .obj incoming, key, doc, noDot, plain => by
    by_cases both : ∃ existing, doc.find? key = some (.obj existing)
    · obtain ⟨existing, found⟩ := both
      exact (unfoldsAt_obj_of_find? found incoming).2 ⟨noDot, unfolds_of_plain incoming existing plain⟩
    · have none := not_exists.1 both
      refine (unfoldsAt_obj_of_not_object none incoming).2 ⟨plain, ?_⟩
      rw [Text.segments_of_notMem noDot]
      exact bind_object?_eq_none_iff.2 none
  | .null, _, _, _, _ | .bool _, _, _, _, _ | .int _, _, _, _, _ | .real _, _, _, _, _
  | .str _, _, _, _, _ | .arr _, _, _, _, _ => trivial

end

mutual

theorem merge_of_unfolds : ∀ (members : List (String × Json)) (doc : Document),
    Json.UniqueKeysMembers members → Unfolds doc members →
    (doc.merge members).1 = doc.layAll (ends members)
  | [], _, _, _ => rfl
  | (key, value) :: members, doc, unique, h => by
    rw [ends_cons, layAll_append, ← mergeMember_of_unfolds value key doc unique.1 h.1]
    exact merge_of_unfolds members _ unique.2 h.2

theorem mergeMember_of_unfolds : ∀ (value : Json) (key : String) (doc : Document),
    value.UniqueKeys → UnfoldsAt doc key value →
    (doc.mergeMember key value).1 = doc.layAll (memberEnds key value)
  | .obj incoming, key, doc, unique, h => by
    have below : ∀ e ∈ ends incoming, e.1 ≠ [] := fun e => ne_nil_of_mem_ends
    by_cases both : ∃ existing, doc.find? key = some (.obj existing)
    · obtain ⟨existing, found⟩ := both
      obtain ⟨noDot, h⟩ := (unfoldsAt_obj_of_find? found incoming).1 h
      rw [mergeMember_of_both found, memberEnds, Text.segments_of_notMem noDot]
      by_cases empty : incoming = []
      · subst empty
        change _ = doc.setAt [key] (overlaid (doc.find? key) (.obj []))
        rw [found]
        rfl
      · rw [endsOf_obj empty, layAll_under_singleton below (ends_ne_nil incoming empty),
          objectAt_of_find? found, merge_of_unfolds incoming existing unique.2 h]
    · have none := not_exists.1 both
      obtain ⟨plain, vacant⟩ := (unfoldsAt_obj_of_not_object none incoming).1 h
      rw [mergeMember_of_not_both (.inr none)]
      by_cases empty : incoming = []
      · subst empty
        exact (layAll_memberEnds_of_bare rfl (.inr vacant)).symm
      · -- What is put in whole has no dotted key, so it is what its own ends make of an empty document.
        have whole : layAll [] (ends incoming) = incoming := by
          rw [← merge_of_unfolds incoming [] unique.2 (unfolds_of_plain incoming [] plain)]
          exact merge_append (plain_keys plain) unique.1
        rw [memberEnds, endsOf_obj empty, layAll_under below (Text.segments_ne_nil key)
          (ends_ne_nil incoming empty), membersIn, vacant]
        exact congrArg (fun m => doc.setAt (Text.segments key) (.obj m)) whole.symm
  | .null, _, _, _, _ | .bool _, _, _, _, _ | .int _, _, _, _, _ | .real _, _, _, _, _
  | .str _, _, _, _, _ | .arr _, _, _, _, _ => by
    rw [mergeMember_of_not_both (.inl rfl)]
    exact (layAll_memberEnds_of_bare rfl (.inl rfl)).symm

end

theorem merge_expand_of_unfolds {overrides doc : Document} (unique : (Json.obj overrides).UniqueKeys)
    (apart : Apart (ends overrides))
    (h : Unfolds doc overrides) : (doc.merge overrides).1 = (doc.merge (expand overrides)).1 := by
  rw [merge_of_unfolds overrides doc unique.2 h, merge_expand unique apart]

/-- Wherever the one document has an object, so has the other. -/
def Covers (doc other : Document) : Prop :=
  ∀ path members, doc.getAt? path = some (.obj members) → ∃ existing, other.getAt? path = some (.obj existing)

theorem covers_nil (other : Document) : Covers [] other := by
  intro path members read
  rw [getAt?_nil_document] at read
  cases read

theorem ne_nil_of_getAt? {path : List String} {doc : Document} {value : Json}
    (h : doc.getAt? path = some value) : path ≠ [] := by
  rintro rfl
  cases h

theorem Covers.below {key : String} {doc other inner outer : Document} (h : Covers doc other)
    (here : doc.find? key = some (.obj inner)) (there : other.find? key = some (.obj outer)) :
    Covers inner outer := by
  intro path members read
  have ne := ne_nil_of_getAt? read
  have further := h (key :: path) members ((getAt?_cons_eq_some ne).2 ⟨inner, here, read⟩)
  rwa [getAt?_cons key ne, objectAt_of_find? there] at further

theorem getAt?_lay_append {path rest : List String} {final : Json} (h : IsEnd (path, final))
    (hp : path ≠ []) (hr : rest ≠ []) {doc : Document} {value : Json} :
    (doc.lay path final).getAt? (path ++ rest) = some value ↔
      final = .obj [] ∧ doc.getAt? (path ++ rest) = some value := by
  rw [getAt?_append hp hr, lay, getAt?_setAt_self hp, getAt?_append hp hr]
  rcases h.bare with scalar | empty
  · rw [overlaid_of_not_both (.inl scalar)]
    constructor
    · rintro ⟨members, same, -⟩
      rw [Option.some.inj same] at scalar
      cases scalar
    · rintro ⟨empty, -⟩
      rw [show final = .obj [] from empty] at scalar
      cases scalar
  · obtain rfl : final = .obj [] := empty
    by_cases both : ∃ existing, doc.getAt? path = some (.obj existing)
    · obtain ⟨existing, found⟩ := both
      simp [found, overlaid, merge]
    · rw [overlaid_of_not_both (.inr (not_exists.1 both))]
      constructor
      · rintro ⟨members, same, read⟩
        obtain rfl := Json.obj.inj (Option.some.inj same)
        rw [getAt?_nil_document] at read
        cases read
      · rintro ⟨-, members, found, -⟩
        exact absurd ⟨members, found⟩ both

theorem getAt?_lay_of_not_overlap {path other : List String} (h : ¬ Overlap other path)
    (value : Json) (doc : Document) : (doc.lay path value).getAt? other = doc.getAt? other :=
  getAt?_setAt_of_not_overlap h _ doc

theorem overlaid_empty (current : Option Json) : ∃ members, overlaid current (.obj []) = .obj members := by
  cases current with
  | none => exact ⟨_, rfl⟩
  | some value => cases value <;> exact ⟨_, rfl⟩

theorem Covers.lay {path : List String} {value : Json} (isEnd : IsEnd (path, value)) (ne : path ≠ [])
    {doc other : Document} (h : Covers doc other) : Covers (doc.lay path value) (other.lay path value) := by
  intro reached members read
  have reaches := ne_nil_of_getAt? read
  by_cases whole : reached = path
  · subst whole
    rw [Document.lay, getAt?_setAt_self ne] at read ⊢
    rcases isEnd.bare with scalar | empty
    · rw [overlaid_of_not_both (.inl scalar)] at read
      rw [Option.some.inj read] at scalar
      cases scalar
    · obtain rfl : value = .obj [] := empty
      obtain ⟨existing, there⟩ := overlaid_empty (other.getAt? reached)
      exact ⟨existing, congrArg some there⟩
  · by_cases together : Overlap reached path
    · rcases together with ⟨rest, rfl⟩ | ⟨rest, rfl⟩
      · -- What was laid is read, so there is an object on the way to it.
        have further : rest ≠ [] := fun none => whole (by rw [none, List.append_nil])
        have laid : (other.lay (reached ++ rest) value).getAt? (reached ++ rest) = _ :=
          getAt?_setAt_self ne _ other
        obtain ⟨existing, found, -⟩ := (getAt?_append reaches further).1 laid
        exact ⟨existing, found⟩
      · have further : rest ≠ [] := fun none => whole (by rw [none, List.append_nil])
        obtain ⟨empty, read⟩ := (getAt?_lay_append isEnd ne further).1 read
        obtain ⟨existing, found⟩ := h _ _ read
        exact ⟨existing, (getAt?_lay_append isEnd ne further).2 ⟨empty, found⟩⟩
    · rw [getAt?_lay_of_not_overlap together] at read ⊢
      exact h reached members read

theorem Covers.layAll {writes : List (List String × Json)} (areEnds : ∀ e ∈ writes, IsEnd e ∧ e.1 ≠ [])
    {doc other : Document} (h : Covers doc other) : Covers (doc.layAll writes) (other.layAll writes) := by
  induction writes generalizing doc other with
  | nil => exact h
  | cons e writes ih =>
    obtain ⟨⟨isEnd, ne⟩, areEnds⟩ := List.forall_mem_cons.1 areEnds
    exact ih areEnds (h.lay isEnd ne)

mutual

/-- Where no dotted key has an object, overrides that unfold into a document unfold into one with more objects. -/
theorem Unfolds.of_covers : ∀ (members : List (String × Json)) (doc other : Document),
    Json.UniqueKeysMembers members → Json.FlatDotsMembers members → Unfolds doc members →
    Covers doc other → Unfolds other members
  | [], _, _, _, _, _, _ => trivial
  | (key, value) :: members, doc, other, unique, ⟨flat, below, rest⟩, ⟨here, later⟩, covers => by
    have there := UnfoldsAt.of_covers value key doc other unique.1 flat below here covers
    refine ⟨there, Unfolds.of_covers members _ _ unique.2 rest later ?_⟩
    have areEnds : ∀ e ∈ memberEnds key value, IsEnd e ∧ e.1 ≠ [] :=
      fun e he => ⟨isEnd_of_mem_memberEnds unique.1 he, ne_nil_of_mem_memberEnds he⟩
    rw [mergeMember_of_unfolds value key doc unique.1 here,
      mergeMember_of_unfolds value key other unique.1 there]
    exact covers.layAll areEnds

theorem UnfoldsAt.of_covers : ∀ (value : Json) (key : String) (doc other : Document),
    value.UniqueKeys → ('.' ∈ key.toList → value.object? = none) → value.FlatDots →
    UnfoldsAt doc key value → Covers doc other → UnfoldsAt other key value
  | .obj incoming, key, doc, other, unique, flat, below, h, covers => by
    have noDot : '.' ∉ key.toList := fun dot => by cases flat dot
    by_cases both : ∃ existing, doc.find? key = some (.obj existing)
    · obtain ⟨existing, found⟩ := both
      obtain ⟨more, there⟩ : ∃ more, other.find? key = some (.obj more) := covers [key] existing found
      refine (unfoldsAt_obj_of_find? there incoming).2 ⟨noDot, ?_⟩
      exact Unfolds.of_covers incoming existing more unique.2 below
        ((unfoldsAt_obj_of_find? found incoming).1 h).2 (covers.below found there)
    · have plain := ((unfoldsAt_obj_of_not_object (not_exists.1 both) incoming).1 h).1
      exact unfoldsAt_of_plain (.obj incoming) key other noDot plain
  | .null, _, _, _, _, _, _, _, _ | .bool _, _, _, _, _, _, _, _, _ | .int _, _, _, _, _, _, _, _, _
  | .real _, _, _, _, _, _, _, _, _ | .str _, _, _, _, _, _, _, _, _
  | .arr _, _, _, _, _, _, _, _, _ => trivial

end

end Document

end SettingsSweep

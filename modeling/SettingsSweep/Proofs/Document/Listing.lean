import SettingsSweep.Proofs.Document.Targets

/-!
What a listing of parameters says of a document. Where no key is empty or has a dot in it, a listing holds every leaf under
its path, once, in the order of the bytes of the names, and besides only fields that are always available.
-/

set_option autoImplicit false

namespace SettingsSweep

namespace Text

def bytes (text : String) : List UInt8 := text.toUTF8.data.toList

theorem bytes_eq (text : String) : bytes text = text.toList.flatMap String.utf8EncodeChar := by
  have whole : text.toUTF8 = (text.toList.flatMap String.utf8EncodeChar).toByteArray := by
    change text.toByteArray = text.toList.utf8Encode
    rw [← String.toByteArray_ofList, String.ofList_toList]
  rw [bytes, whole, List.data_toByteArray]

/-- The first byte tells the length of a character, and no continuation of the lesser one makes up for a lesser byte. -/
theorem utf8EncodeChar_append_lt {c d : Char} (h : c < d) (rest rest' : List UInt8) :
    String.utf8EncodeChar c ++ rest < String.utf8EncodeChar d ++ rest' := by
  have less : c.val.toNat < d.val.toNat := h
  have bound : d.val.toNat < 0x110000 := by
    have := d.valid
    omega
  have byte {m n : Nat} (hm : m < 256) (hn : n < 256) : UInt8.ofNat m < UInt8.ofNat n ↔ m < n := by
    rw [UInt8.lt_iff_toNat_lt, UInt8.toNat_ofNat', UInt8.toNat_ofNat']
    omega
  have same {m n : Nat} (hm : m < 256) (hn : n < 256) : UInt8.ofNat m = UInt8.ofNat n ↔ m = n := by
    rw [← UInt8.toNat_inj, UInt8.toNat_ofNat', UInt8.toNat_ofNat']
    omega
  have twice (k : Nat) : k / 4096 = k / 64 / 64 := (Nat.div_div_eq_div_mul k 64 64).symm
  have thrice (k : Nat) : k / 262144 = k / 64 / 64 / 64 := by
    rw [Nat.div_div_eq_div_mul, Nat.div_div_eq_div_mul]
  unfold String.utf8EncodeChar
  simp only [twice, thrice]
  generalize c.val.toNat = m at *
  generalize d.val.toNat = n at *
  -- One case for each pair of lengths, told by the digits of the code points to the base 64.
  repeat' split
  all_goals simp (disch := omega) only [List.cons_append, List.nil_append, List.cons_lt_cons_iff, byte, same]
  all_goals omega

theorem flatMap_utf8EncodeChar_lt {chars others : List Char} (h : chars < others) :
    chars.flatMap String.utf8EncodeChar < others.flatMap String.utf8EncodeChar := by
  induction others generalizing chars with
  | nil => exact absurd h (List.not_lt_nil chars)
  | cons d others ih =>
    cases chars with
    | nil =>
      obtain ⟨b, bs, some⟩ := List.exists_cons_of_ne_nil (String.utf8EncodeChar_ne_nil (c := d))
      rw [List.flatMap_cons, some]
      exact List.nil_lt_cons b _
    | cons c chars =>
      rw [List.flatMap_cons, List.flatMap_cons]
      rcases List.cons_lt_cons_iff.1 h with less | ⟨rfl, less⟩
      · exact utf8EncodeChar_append_lt less _ _
      · exact List.append_left_lt (ih less)

/-- The order of texts is the order of their bytes. -/
theorem bytes_lt_of_lt {text other : String} (h : text < other) : bytes text < bytes other := by
  rw [bytes_eq, bytes_eq]
  exact flatMap_utf8EncodeChar_lt (String.lt_iff.1 h)

end Text

namespace Document

variable {catalog : Catalog} {doc : Document}

/-- Every key on the way to a value is a name without dots. -/
def NamedKeys (doc : Document) : Prop :=
  ∀ keys value, doc.getAt? keys = some value → ∀ key ∈ keys, key ≠ "" ∧ '.' ∉ key.toList

theorem NamedKeys.of_members (named : ∀ member ∈ doc, (member.1 ≠ "" ∧ '.' ∉ member.1.toList) ∧
    ∀ members, member.2 = .obj members → NamedKeys members) : doc.NamedKeys := by
  intro keys value read
  cases keys with
  | nil => cases read
  | cons first keys =>
    by_cases last : keys = []
    · subst last
      exact List.forall_mem_singleton.2 (named _ (Dict.mem_of_find? read)).1
    · obtain ⟨members, found, below⟩ := (getAt?_cons_eq_some last).1 read
      have here := named _ (Dict.mem_of_find? found)
      exact List.forall_mem_cons.2 ⟨here.1, here.2 members rfl keys value below⟩

theorem NamedKeys.plainPath (named : doc.NamedKeys) {keys : List String} {value : Json}
    (read : doc.getAt? keys = some value) : PlainPath keys := by
  refine ⟨fun key hk => (named keys value read key hk).2, fun first => ?_⟩
  exact absurd rfl (named keys value read "" (List.mem_of_mem_head? first)).1

theorem NamedKeys.joinKeys_eq (named : doc.NamedKeys) {keys : List String} {value : Json}
    (read : doc.getAt? keys = some value) : joinKeys keys = Text.ofSegments keys := by
  cases keys with
  | nil => cases read
  | cons key keys => exact joinKeys_of_first (named _ value read key List.mem_cons_self).1 keys

theorem nodup_leafNames (unique : (Json.obj doc).UniqueKeys) (named : doc.NamedKeys) :
    ((doc.leafPaths catalog).map fun leaf => joinKeys leaf.1).Nodup := by
  have split : ∀ keys ∈ (doc.leafPaths catalog).map Prod.fst, Text.segments (joinKeys keys) = keys := by
    intro keys hk
    obtain ⟨leaf, hl, rfl⟩ := List.mem_map.1 hk
    have read := ((mem_leafPathsOf_iff unique).1 hl).1
    exact (segments_joinKeys_iff (ne_nil_of_mem_leafPathsOf hl)).2 (named.plainPath read)
  have names : ((doc.leafPaths catalog).map fun leaf => joinKeys leaf.1) =
      ((doc.leafPaths catalog).map Prod.fst).map joinKeys := by
    rw [List.map_map]
    rfl
  rw [names]
  refine (nodup_leafPathsOf _ doc unique).map_on fun keys hk others ho same => ?_
  rw [← split keys hk, same, split others ho]

theorem notMem_absent_of_mem_leafPaths {leaf : List String × Json} (h : leaf ∈ doc.leafPaths catalog) :
    joinKeys leaf.1 ∉ doc.absent catalog := by
  intro added
  have none := (List.mem_filter.1 added).2
  rw [Bool.not_eq_true', List.any_eq_false] at none
  exact none leaf h (decide_eq_true rfl)

theorem nodup_names (unique : (Json.obj doc).UniqueKeys) (named : doc.NamedKeys) :
    ((doc.parameters catalog).map Parameter.name).Nodup := by
  rw [((parameters_perm catalog doc).map Parameter.name).nodup_iff, List.map_append, List.map_map, List.map_map]
  refine List.nodup_append.2 ⟨nodup_leafNames unique named, ?_, ?_⟩
  · change ((doc.absent catalog).map id).Nodup
    rw [List.map_id]
    exact List.Nodup.filter _ (by decide)
  · intro name here other there same
    obtain ⟨leaf, hl, rfl⟩ := List.mem_map.1 here
    obtain ⟨added, ha, rfl⟩ := List.mem_map.1 there
    change joinKeys leaf.1 = added at same
    exact notMem_absent_of_mem_leafPaths hl (same ▸ ha)

theorem pairwise_names_le (catalog : Catalog) (doc : Document) :
    ((doc.parameters catalog).map Parameter.name).Pairwise (· ≤ ·) := by
  unfold parameters
  dsimp only
  rw [List.map_map, List.pairwise_map]
  refine (List.pairwise_mergeSort (fun a b c ab bc => ?_) (fun a b => ?_) _).imp of_decide_eq_true
  · exact decide_eq_true (String.le_trans (of_decide_eq_true ab) (of_decide_eq_true bc))
  · rw [Bool.or_eq_true, decide_eq_true_iff, decide_eq_true_iff]
    exact String.le_total _ _

theorem pairwise_names_lt (unique : (Json.obj doc).UniqueKeys) (named : doc.NamedKeys) :
    ((doc.parameters catalog).map Parameter.name).Pairwise (· < ·) :=
  ((pairwise_names_le catalog doc).and (nodup_names unique named)).imp fun h => Std.lt_of_le_of_ne h.1 h.2

theorem mem_parameters_none_iff {p : Parameter} : p ∈ doc.parameters catalog ∧ p.current = none ↔
    ∃ name ∈ doc.absent catalog, p = ⟨name, catalog.classify name, none⟩ := by
  rw [(parameters_perm catalog doc).mem_iff, List.mem_append, List.mem_map, List.mem_map]
  constructor
  · rintro ⟨⟨leaf, hl, rfl⟩ | ⟨name, hn, rfl⟩, h⟩
    · cases h
    · exact ⟨name, hn, rfl⟩
  · rintro ⟨name, hn, rfl⟩
    exact ⟨.inr ⟨name, hn, rfl⟩, rfl⟩

theorem kind_of_mem_parameters {p : Parameter} (h : p ∈ doc.parameters catalog) :
    p.kind = catalog.classify p.name := by
  cases hc : p.current with
  | some current =>
    obtain ⟨keys, -, rfl⟩ := mem_parameters_some_iff.1 ⟨h, hc⟩
    rfl
  | none =>
    obtain ⟨name, -, rfl⟩ := mem_parameters_none_iff.1 ⟨h, hc⟩
    rfl

theorem mem_leafPaths_named_iff (unique : (Json.obj doc).UniqueKeys) (named : doc.NamedKeys) {name : String}
    {value : Json} : (∃ keys, (keys, value) ∈ doc.leafPaths catalog ∧ joinKeys keys = name) ↔
      ∃ keys, doc.getAt? keys = some value ∧ IsLeaf catalog.promptsField keys value ∧ Text.ofSegments keys = name := by
  refine exists_congr fun keys => ?_
  rw [leafPaths, mem_leafPathsOf_iff unique, and_assoc]
  refine and_congr_right fun read => and_congr_right fun _ => ?_
  rw [named.joinKeys_eq read]

theorem mem_absent_iff (unique : (Json.obj doc).UniqueKeys) (named : doc.NamedKeys) {name : String} :
    name ∈ doc.absent catalog ↔ name ∈ alwaysAvailable ∧ ∀ keys value, doc.getAt? keys = some value →
      IsLeaf catalog.promptsField keys value → Text.ofSegments keys ≠ name := by
  rw [absent, List.mem_filter, Bool.not_eq_true', List.any_eq_false]
  refine and_congr_right fun _ => ?_
  constructor
  · intro none keys value read leaf same
    obtain ⟨path, hp, join⟩ := (mem_leafPaths_named_iff unique named).2 ⟨keys, read, leaf, same⟩
    exact none _ hp (decide_eq_true join)
  · rintro none ⟨path, value⟩ hp same
    obtain ⟨keys, read, leaf, join⟩ :=
      (mem_leafPaths_named_iff unique named).1 ⟨path, hp, of_decide_eq_true same⟩
    exact none keys value read leaf join

/-- A listing is a faithful table of contents. Its names ascend by their bytes; the entries with a value are the leaves
    under their paths, each with what is read there; the others are the fields that are always available and no leaves; and
    every entry is of the kind that its name is classified as. -/
theorem listing_is_leaves (catalog : Catalog) {doc : Document} (unique : (Json.obj doc).UniqueKeys)
    (named : doc.NamedKeys) :
    ((doc.parameters catalog).map Parameter.name).Pairwise (fun a b => Text.bytes a < Text.bytes b) ∧
      (∀ name current, (∃ p ∈ doc.parameters catalog, p.name = name ∧ p.current = some current) ↔
        ∃ keys, doc.getAt? keys = some current ∧ IsLeaf catalog.promptsField keys current ∧
          Text.ofSegments keys = name) ∧
      (∀ p ∈ doc.parameters catalog, ∀ current, p.current = some current → doc.get? p.name = some current) ∧
      (∀ name, (∃ p ∈ doc.parameters catalog, p.name = name ∧ p.current = none) ↔
        name ∈ alwaysAvailable ∧ ∀ keys value, doc.getAt? keys = some value →
          IsLeaf catalog.promptsField keys value → Text.ofSegments keys ≠ name) ∧
      ∀ p ∈ doc.parameters catalog, p.kind = catalog.classify p.name := by
  refine ⟨(pairwise_names_lt unique named).imp Text.bytes_lt_of_lt, fun name current => ?_, fun p hp current hc => ?_,
    fun name => ?_, fun p hp => kind_of_mem_parameters hp⟩
  · rw [← mem_leafPaths_named_iff unique named]
    constructor
    · rintro ⟨p, hp, rfl, hc⟩
      obtain ⟨keys, hk, rfl⟩ := mem_parameters_some_iff.1 ⟨hp, hc⟩
      exact ⟨keys, hk, rfl⟩
    · rintro ⟨keys, hk, rfl⟩
      obtain ⟨hp, hc⟩ := mem_parameters_some_iff.2 ⟨keys, hk, rfl⟩
      exact ⟨_, hp, rfl, hc⟩
  · obtain ⟨keys, hk, rfl⟩ := mem_parameters_some_iff.1 ⟨hp, hc⟩
    have read := ((mem_leafPathsOf_iff unique).1 hk).1
    rw [get?, (segments_joinKeys_iff (ne_nil_of_mem_leafPathsOf hk)).2 (named.plainPath read), read]
  · rw [← mem_absent_iff unique named]
    constructor
    · rintro ⟨p, hp, rfl, hc⟩
      obtain ⟨name, hn, rfl⟩ := mem_parameters_none_iff.1 ⟨hp, hc⟩
      exact hn
    · intro hn
      obtain ⟨hp, hc⟩ := mem_parameters_none_iff.2 ⟨name, hn, rfl⟩
      exact ⟨_, hp, rfl, hc⟩

/-- The prompts are a leaf at any depth, and a name that goes on beyond ASCII comes last. -/
def stagedDocument : Document :=
  [("zoöm", .int 2), ("zoom", .null), ("anim", .obj [("prompts", .obj [("0", .str "sea")]), ("depth", .obj [])])]

theorem listing_is_leaves_staged : (Json.obj stagedDocument).UniqueKeys ∧ stagedDocument.NamedKeys ∧
    (∃ p ∈ stagedDocument.parameters {}, p.name = "anim.prompts" ∧ p.current = some (.obj [("0", .str "sea")])) ∧
    (∃ p ∈ stagedDocument.parameters {}, p.name = "prompts" ∧ p.current = none) ∧
    ((stagedDocument.parameters {}).map Parameter.name).Pairwise (fun a b => Text.bytes a < Text.bytes b) ∧
    Text.bytes "zoom" < Text.bytes "zoöm" := by
  have unique : (Json.obj stagedDocument).UniqueKeys := by
    simp [stagedDocument, Json.UniqueKeys, Json.UniqueKeysMembers]
  have frames : NamedKeys [("0", .str "sea")] := .of_members (by simp)
  have anim : NamedKeys [("prompts", .obj [("0", .str "sea")]), ("depth", .obj [])] :=
    .of_members (by simpa using ⟨frames, .of_members (by simp)⟩)
  have named : stagedDocument.NamedKeys := .of_members (by simpa [stagedDocument] using anim)
  obtain ⟨ordered, leaves, -, added, -⟩ := listing_is_leaves {} unique named
  refine ⟨unique, named, (leaves _ _).2 ⟨["anim", "prompts"], rfl, ⟨by decide, .inr rfl⟩, by decide⟩, ?_, ordered,
    by decide +kernel⟩
  refine (added "prompts").2 ⟨by decide, fun keys value read _ same => ?_⟩
  have ne : keys ≠ [] := fun none => by
    rw [none] at read
    cases read
  have split := Text.segments_ofSegments ne (named.plainPath read).noDot
  rw [same] at split
  obtain rfl : ["prompts"] = keys := split
  cases read

end Document

end SettingsSweep

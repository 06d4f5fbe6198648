import SettingsSweep.Proofs.Document.Expansion

/-!
Documents up to the order of their keys. Putting, removing and writing at a path respect it, and two writes at paths that
do not overlap can change places; so of such writes the order does not matter, though it shows in the order of the keys.
-/

set_option autoImplicit false

namespace SettingsSweep

/-- Equal but for the order of keys: objects have the same keys, in any order, and under each key values that are equal in
    this sense. -/
inductive Json.Reordered : Json → Json → Prop
  | refl (value : Json) : Reordered value value
  | obj {members others : Document} (keys : members.keys.Perm others.keys)
      (values : ∀ key v w, members.find? key = some v → others.find? key = some w → Reordered v w) :
      Reordered (.obj members) (.obj others)

theorem Dict.find?_eq_none_iff {α : Type} {key : String} {d : Dict α} : d.find? key = none ↔ key ∉ d.keys := by
  refine ⟨fun absent there => ?_, find?_eq_none_of_notMem⟩
  induction d with
  | nil => cases there
  | cons entry d ih =>
    obtain ⟨k, v⟩ := entry
    rw [find?] at absent
    split at absent
    · cases absent
    · next ne => exact ih absent ((List.mem_cons.1 there).resolve_left (Ne.symm ne))

namespace Document

def Reordered (doc other : Document) : Prop := Json.Reordered (.obj doc) (.obj other)

variable {doc other : Document}

theorem reordered_iff : doc.Reordered other ↔ doc.keys.Perm other.keys ∧
    ∀ key v w, doc.find? key = some v → other.find? key = some w → v.Reordered w := by
  constructor
  · rintro (- | ⟨keys, values⟩)
    · refine ⟨.refl _, fun key v w hv hw => ?_⟩
      rw [Option.some.inj (hv.symm.trans hw)]
      exact .refl w
    · exact ⟨keys, values⟩
  · rintro ⟨keys, values⟩
    exact .obj keys values

theorem reordered_of_find? (keys : doc.keys.Perm other.keys) (same : ∀ key, doc.find? key = other.find? key) :
    doc.Reordered other := by
  refine reordered_iff.2 ⟨keys, fun key v w hv hw => ?_⟩
  rw [Option.some.inj (hv.symm.trans ((same key).trans hw))]
  exact .refl w

namespace Reordered

theorem rfl : doc.Reordered doc := Json.Reordered.refl _

theorem find?_eq_none_iff (h : doc.Reordered other) {key : String} :
    doc.find? key = none ↔ other.find? key = none := by
  rw [Dict.find?_eq_none_iff, Dict.find?_eq_none_iff, (reordered_iff.1 h).1.mem_iff]

theorem exists_find? (h : doc.Reordered other) {key : String} {w : Json} (found : other.find? key = some w) :
    ∃ v, doc.find? key = some v := by
  refine Option.ne_none_iff_exists'.1 fun absent => ?_
  rw [h.find?_eq_none_iff.1 absent] at found
  cases found

end Reordered

end Document

theorem Json.Reordered.trans {u v w : Json} (first : u.Reordered v) (second : v.Reordered w) : u.Reordered w := by
  induction first generalizing w with
  | refl value => exact second
  | @obj members others keys values ih =>
    cases second with
    | refl value => exact .obj keys values
    | @obj _ thirds keys' values' =>
      refine .obj (keys.trans keys') fun key v w hv hw => ?_
      obtain ⟨u, hu⟩ := Document.Reordered.exists_find? (.obj keys' values') hw
      exact ih key v u hv hu (values' key u w hu hw)

namespace Document

namespace Reordered

variable {doc other third : Document} {key : String} {v w : Json}

theorem trans (first : doc.Reordered other) (second : other.Reordered third) : doc.Reordered third :=
  Json.Reordered.trans first second

theorem put (h : doc.Reordered other) (values : v.Reordered w) : Reordered (doc.put key v) (other.put key w) := by
  obtain ⟨keys, same⟩ := reordered_iff.1 h
  refine reordered_iff.2 ⟨?_, fun found v' w' hv hw => ?_⟩
  · rw [Dict.keys_put, Dict.keys_put]
    by_cases there : key ∈ doc.keys
    · rw [if_pos there, if_pos (keys.mem_iff.1 there)]
      exact keys
    · rw [if_neg there, if_neg (keys.mem_iff.not.1 there)]
      exact keys.append_right [key]
  · by_cases here : found = key
    · subst here
      rw [Dict.find?_put_self] at hv hw
      rwa [← Option.some.inj hv, ← Option.some.inj hw]
    · rw [Dict.find?_put_of_ne here] at hv hw
      exact same found v' w' hv hw

theorem remove (h : doc.Reordered other) : Reordered (doc.remove key) (other.remove key) := by
  obtain ⟨keys, same⟩ := reordered_iff.1 h
  refine reordered_iff.2 ⟨?_, fun found v w hv hw => ?_⟩
  · rw [Dict.keys_remove, Dict.keys_remove]
    exact keys.filter _
  · have ne : found ≠ key := by
      rintro rfl
      rw [Dict.find?_remove_self] at hv
      cases hv
    rw [Dict.find?_remove_of_ne ne] at hv hw
    exact same found v w hv hw

theorem objectAt (h : doc.Reordered other) (key : String) : Reordered (doc.objectAt key) (other.objectAt key) := by
  unfold Document.objectAt
  cases found : doc.find? key with
  | none =>
    rw [h.find?_eq_none_iff.1 found]
    exact rfl
  | some v =>
    cases found' : other.find? key with
    | none =>
      rw [h.find?_eq_none_iff.2 found'] at found
      cases found
    | some w =>
      cases (reordered_iff.1 h).2 key v w found found' with
      | refl value => exact rfl
      | obj keys values => exact .obj keys values

theorem setAt (h : doc.Reordered other) (path : List String) (value : Json) :
    Reordered (doc.setAt path value) (other.setAt path value) := by
  induction path generalizing doc other with
  | nil => exact h
  | cons key keys ih =>
    by_cases last : keys = []
    · subst last
      exact h.put (.refl value)
    · rw [setAt_cons key last, setAt_cons key last]
      exact h.put (ih (h.objectAt key))

theorem writeAll (h : doc.Reordered other) (writes : List (List String × Json)) :
    Reordered (doc.writeAll writes) (other.writeAll writes) := by
  induction writes generalizing doc other with
  | nil => exact h
  | cons w writes ih => exact ih (h.setAt w.1 w.2)

end Reordered

variable {doc : Document}

theorem reordered_put_put {key key' : String} (ne : key ≠ key') (v w : Json) :
    Reordered ((doc.put key v).put key' w) ((doc.put key' w).put key v) := by
  refine reordered_of_find? ?_ fun found => ?_
  · rw [Dict.keys_put, Dict.keys_put, Dict.keys_put, Dict.keys_put]
    by_cases here : key ∈ doc.keys
    · by_cases here' : key' ∈ doc.keys <;> simp [here, here']
    · by_cases here' : key' ∈ doc.keys
      · simp [here, here']
      · simpa [here, here', ne, Ne.symm ne] using List.Perm.append_left doc.keys (List.Perm.swap key' key [])
  · by_cases first : found = key
    · subst first
      rw [Dict.find?_put_of_ne ne, Dict.find?_put_self, Dict.find?_put_self]
    · rw [Dict.find?_put_of_ne first]
      by_cases second : found = key'
      · subst second
        rw [Dict.find?_put_self, Dict.find?_put_self]
      · rw [Dict.find?_put_of_ne second, Dict.find?_put_of_ne second, Dict.find?_put_of_ne first]

/-- A write puts its first key, and all it looks at is what stands there. -/
theorem exists_setAt_eq_put (key : String) (keys : List String) (value : Json) : ∃ held : Option Json → Json,
    ∀ doc : Document, doc.setAt (key :: keys) value = doc.put key (held (doc.find? key)) := by
  by_cases last : keys = []
  · subst last
    exact ⟨fun _ => value, fun _ => rfl⟩
  · refine ⟨fun found => .obj (setAt keys value ((found.bind Json.object?).getD [])), fun doc => ?_⟩
    rw [setAt_cons key last, ← membersIn_singleton]
    rfl

theorem reordered_setAt_setAt {path path' : List String} (apart : ¬ Overlap path path') (v w : Json) (doc : Document) :
    Reordered ((doc.setAt path v).setAt path' w) ((doc.setAt path' w).setAt path v) := by
  induction path generalizing path' doc with
  | nil => exact absurd (Overlap.nil_left path') apart
  | cons key keys ih =>
    cases path' with
    | nil => exact absurd (Overlap.nil_right _) apart
    | cons key' keys' =>
      by_cases same : key = key'
      · subst same
        -- Both paths go on below the key, or one would lead to the other.
        rw [Overlap.cons_iff] at apart
        have more : keys ≠ [] := fun e => apart (e ▸ Overlap.nil_left keys')
        have more' : keys' ≠ [] := fun e => apart (e ▸ Overlap.nil_right keys)
        rw [setAt_cons key more, setAt_cons key more', setAt_cons key more', setAt_cons key more, objectAt_put_self,
          objectAt_put_self, Dict.put_put, Dict.put_put]
        exact Reordered.rfl.put (ih apart _)
      · obtain ⟨held, first⟩ := exists_setAt_eq_put key keys v
        obtain ⟨held', second⟩ := exists_setAt_eq_put key' keys' w
        rw [first, second, second, first, Dict.find?_put_of_ne (Ne.symm same), Dict.find?_put_of_ne same]
        exact reordered_put_put same _ _

/-- Writes at paths that do not overlap come to the same in any order. -/
theorem reordered_writeAll_of_perm {writes others : List (List String × Json)} (perm : writes.Perm others)
    (apart : (writes.map Prod.fst).Pairwise fun p q => ¬ Overlap p q) (doc : Document) :
    Reordered (doc.writeAll writes) (doc.writeAll others) := by
  induction perm generalizing doc with
  | nil => exact .rfl
  | cons w _ ih => exact ih (List.pairwise_cons.1 apart).2 _
  | swap u w rest =>
    have beside : ¬ Overlap w.1 u.1 := (List.pairwise_cons.1 apart).1 u.1 List.mem_cons_self
    exact (reordered_setAt_setAt beside w.2 u.2 doc).writeAll rest
  | trans first _ ih ih' =>
    have symm : ∀ {p q : List String}, ¬ Overlap p q → ¬ Overlap q p := fun h overlap => h overlap.symm
    exact (ih apart doc).trans (ih' (((first.map Prod.fst).pairwise_iff symm).1 apart) doc)

end Document

end SettingsSweep

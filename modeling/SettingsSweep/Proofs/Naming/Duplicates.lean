import SettingsSweep.Proofs.Naming.Registry
import Mathlib.Data.List.Induction

/-!
Which claims of a run are told to be duplicates. Under the warn policy it is every claim for a name but the
first; under the suffix policy it is every claim that is not given its own name.
-/

set_option autoImplicit false

namespace SettingsSweep

/-- The names with a place, each once, in the order of their first places. -/
structure Listed (place : Nat → String → Prop) (listed : List String) : Prop where
  nodup : listed.Nodup
  mem_iff : ∀ name, name ∈ listed ↔ ∃ i, place i name
  ordered : listed.Pairwise fun a b => ∃ i, place i a ∧ ∀ j, place j b → i < j

namespace Listed

variable {place other : Nat → String → Prop} {listed : List String}

/-- Places that are not the first of their name do not count. -/
theorem of_first (h : Listed place listed) (sub : ∀ i name, other i name → place i name)
    (first : ∀ i name, place i name → ∃ j, j ≤ i ∧ other j name) : Listed other listed := by
  refine ⟨h.nodup, fun name => ?_, h.ordered.imp ?_⟩
  · rw [h.mem_iff]
    constructor
    · rintro ⟨i, hi⟩
      obtain ⟨j, -, hj⟩ := first i name hi
      exact ⟨j, hj⟩
    · rintro ⟨i, hi⟩
      exact ⟨i, sub i name hi⟩
  · rintro a b ⟨i, hi, before⟩
    obtain ⟨j, hji, hj⟩ := first i a hi
    exact ⟨j, hj, fun k hk => Nat.lt_of_le_of_lt hji (before k (sub k b hk))⟩

theorem congr (h : Listed place listed) (same : ∀ i name, other i name ↔ place i name) :
    Listed other listed :=
  h.of_first (fun i name => (same i name).1) fun i name hi => ⟨i, Nat.le_refl i, (same i name).2 hi⟩

theorem empty (none : ∀ i name, ¬ place i name) : Listed place [] :=
  ⟨List.nodup_nil, fun name => by simp [none], List.Pairwise.nil⟩

/-- A place beyond all others adds its name, unless that is listed already. -/
theorem concat (h : Listed place listed) {n : Nat} (bound : ∀ i name, place i name → i < n)
    (last : String) :
    Listed (fun i name => place i name ∨ i = n ∧ name = last)
      (if last ∈ listed then listed else listed ++ [last]) := by
  have old : ∀ {a b}, (∃ i, place i a ∧ ∀ j, place j b → i < j) →
      ∃ i, (place i a ∨ i = n ∧ a = last) ∧ ∀ j, place j b ∨ j = n ∧ b = last → i < j := by
    rintro a b ⟨i, hi, before⟩
    refine ⟨i, .inl hi, ?_⟩
    rintro j (hj | ⟨rfl, -⟩)
    · exact before j hj
    · exact bound i a hi
  split
  · next known =>
    obtain ⟨k, hk⟩ := (h.mem_iff last).1 known
    refine ⟨h.nodup, fun name => ?_, h.ordered.imp old⟩
    rw [h.mem_iff]
    constructor
    · rintro ⟨i, hi⟩
      exact ⟨i, .inl hi⟩
    · rintro ⟨i, hi | ⟨-, rfl⟩⟩
      · exact ⟨i, hi⟩
      · exact ⟨k, hk⟩
  · next new =>
    refine ⟨?_, fun name => ?_, ?_⟩
    · rw [List.nodup_append]
      refine ⟨h.nodup, by simp, fun a ha b hb => ?_⟩
      obtain rfl := List.mem_singleton.1 hb
      exact fun e => new (e ▸ ha)
    · rw [List.mem_append, List.mem_singleton, h.mem_iff]
      constructor
      · rintro (⟨i, hi⟩ | rfl)
        · exact ⟨i, .inl hi⟩
        · exact ⟨n, .inr ⟨rfl, rfl⟩⟩
      · rintro ⟨i, hi | ⟨-, rfl⟩⟩
        · exact .inl ⟨i, hi⟩
        · exact .inr rfl
    · rw [List.pairwise_append]
      refine ⟨h.ordered.imp old, by simp, fun a ha b hb => ?_⟩
      obtain rfl := List.mem_singleton.1 hb
      obtain ⟨i, hi⟩ := (h.mem_iff a).1 ha
      refine ⟨i, .inl hi, ?_⟩
      rintro j (hj | ⟨rfl, -⟩)
      · exact absurd ((h.mem_iff b).2 ⟨j, hj⟩) new
      · exact bound i a hi

end Listed

namespace NameRegistry

variable {options : NamingOptions}

theorem claim_duplicate_iff (registry : NameRegistry) (options : NamingOptions) (name : String) :
    (registry.claim options name).2.duplicate = true ↔
      name ∈ registry.asked ∨ name ∈ registry.taken := by
  by_cases used : name ∈ registry.asked ∨ name ∈ registry.taken
  · simp only [claim, if_neg (not_free_of_used used), used]
  · have free := not_or.1 used
    simp [claim_of_free options free.1 free.2, used]

theorem splitExtension_eq (extension name : String) :
    (splitExtension extension name).1 ++ (splitExtension extension name).2 = name := by
  unfold splitExtension
  split
  · next h =>
    obtain ⟨stem, hs⟩ := List.isSuffixOf_iff_suffix.1 h.2
    have length : name.length - extension.length = stem.length := by
      rw [← String.length_toList, ← String.length_toList, ← hs, List.length_append]
      omega
    rw [length, ← String.toList_inj, String.toList_append, String.toList_ofList, ← hs,
      List.take_left]
  · exact String.append_empty

theorem numbered_ne (extension name : String) (n : Nat) : numbered extension name n ≠ name := by
  intro h
  apply candidate_ne (splitExtension extension name).1 (splitExtension extension name).2 n
  rw [splitExtension_eq]
  exact h

theorem claim_duplicate_iff_name_ne (policy : options.onDuplicate = .suffix)
    (registry : NameRegistry) (name : String) :
    (registry.claim options name).2.duplicate = true ↔
      (registry.claim options name).2.name ≠ name := by
  by_cases used : name ∈ registry.asked ∨ name ∈ registry.taken
  · rw [claim_of_used policy used, nextFree_eq]
    simp [numbered_ne]
  · have free := not_or.1 used
    simp [claim_of_free options free.1 free.2]

theorem after_concat (registry : NameRegistry) (names : List String) (name : String) :
    after options registry (names ++ [name]) =
      ((after options registry names).claim options name).1 := by
  simp [after]

theorem after_taken_warn (policy : options.onDuplicate = .warn) (registry : NameRegistry)
    (names : List String) :
    (after options registry names).taken = names.reverse ++ registry.taken := by
  induction names generalizing registry with
  | nil => rfl
  | cons name names ih =>
    have first : (registry.claim options name).2.name = name := by
      have h := claims_warn policy registry [name]
      simpa [claims] using h
    change (after options (registry.claim options name).1 names).taken = _
    rw [ih, claim_taken, first]
    simp

/-- The claim at a place asks for the name and is told to be a duplicate. -/
def ClashesAt (options : NamingOptions) (names : List String) (i : Nat) (name : String) : Prop :=
  names[i]? = some name ∧
    ((after options {} (names.take i)).claim options name).2.duplicate = true

theorem ClashesAt.lt {names : List String} {i : Nat} {name : String}
    (h : ClashesAt options names i name) : i < names.length :=
  (List.getElem?_eq_some_iff.1 h.1).1

theorem clashesAt_concat {names : List String} {last : String} {i : Nat} {name : String} :
    ClashesAt options (names ++ [last]) i name ↔ ClashesAt options names i name ∨
      (i = names.length ∧ name = last) ∧
        ((after options {} names).claim options last).2.duplicate = true := by
  rcases Nat.lt_trichotomy i names.length with lt | rfl | gt
  · rw [ClashesAt, ClashesAt, List.getElem?_append_left lt, List.take_append_of_le_length (by omega)]
    simp [Nat.ne_of_lt lt]
  · have none : ¬ ClashesAt options names names.length name := fun h => Nat.lt_irrefl _ h.lt
    rw [ClashesAt, List.getElem?_concat_length, List.take_left]
    constructor
    · rintro ⟨e, h⟩
      obtain rfl := Option.some.inj e
      exact .inr ⟨⟨rfl, rfl⟩, h⟩
    · rintro (h | ⟨⟨-, rfl⟩, h⟩)
      · exact absurd h none
      · exact ⟨rfl, h⟩
  · constructor
    · intro h
      have := h.lt
      rw [List.length_append, List.length_singleton] at this
      omega
    · rintro (h | ⟨⟨h, -⟩, -⟩)
      · have := h.lt
        omega
      · omega

theorem clashesAt_warn (policy : options.onDuplicate = .warn) {names : List String} {i : Nat}
    {name : String} :
    ClashesAt options names i name ↔ names[i]? = some name ∧ name ∈ names.take i := by
  rw [ClashesAt, claim_duplicate_iff, after_asked, after_taken_warn policy]
  simp

theorem clashesAt_suffix (policy : options.onDuplicate = .suffix) {names : List String} {i : Nat}
    {name : String} :
    ClashesAt options names i name ↔
      names[i]? = some name ∧ ((claims options {} names)[i]?).map (·.name) ≠ some name := by
  rw [ClashesAt, claim_duplicate_iff_name_ne policy, claims_getElem?]
  refine and_congr_right fun h => ?_
  simp [h]

theorem exists_second {names : List String} {name : String} (h : 2 ≤ names.count name) :
    ∃ i, names[i]? = some name ∧ (names.take i).count name = 1 := by
  induction names using List.reverseRecOn with
  | nil => simp at h
  | append_singleton names last ih =>
    by_cases early : 2 ≤ names.count name
    · obtain ⟨i, hi, count⟩ := ih early
      have lt := (List.getElem?_eq_some_iff.1 hi).1
      refine ⟨i, ?_, ?_⟩
      · rw [List.getElem?_append_left lt, hi]
      · rw [List.take_append_of_le_length (by omega), count]
    · have same : last = name := by
        by_contra ne
        rw [List.count_append, List.count_singleton, beq_false_of_ne ne] at h
        exact early h
      subst same
      refine ⟨names.length, List.getElem?_concat_length, ?_⟩
      rw [List.count_append, List.count_singleton_self] at h
      rw [List.take_left]
      omega

theorem listed_warn (policy : options.onDuplicate = .warn) {names listed : List String}
    (h : Listed (ClashesAt options names) listed) :
    Listed (fun i name => names[i]? = some name ∧ (names.take i).count name = 1) listed := by
  refine h.of_first (fun i name hi => ?_) fun i name hi => ?_
  · rw [clashesAt_warn policy]
    exact ⟨hi.1, List.count_pos_iff.1 (by omega)⟩
  · obtain ⟨at_, earlier⟩ := (clashesAt_warn policy).1 hi
    have twice : 2 ≤ (names.take (i + 1)).count name := by
      have := List.count_pos_iff.2 earlier
      rw [List.take_add_one, at_, List.count_append]
      simp
      omega
    obtain ⟨j, hj, count⟩ := exists_second twice
    have lt := (List.getElem?_eq_some_iff.1 hj).1
    rw [List.length_take] at lt
    rw [List.getElem?_take_of_lt (by omega)] at hj
    rw [List.take_take, Nat.min_eq_left (by omega)] at count
    exact ⟨j, by omega, hj, count⟩

theorem exists_clashesAt {names : List String} {name : String} (h : 2 ≤ names.count name) :
    ∃ i, ClashesAt options names i name := by
  obtain ⟨i, hi, count⟩ := exists_second h
  refine ⟨i, hi, (claim_duplicate_iff _ _ _).2 (.inl ?_)⟩
  rw [after_asked, List.append_nil, List.mem_reverse]
  exact List.count_pos_iff.1 (by omega)

end NameRegistry

end SettingsSweep

import SettingsSweep.Naming.Registry
import Mathlib.Data.List.Basic
import Std.Data.String.ToNat

/-!
What a registry gives out over a run of names. Under the suffix policy nothing is given out twice, and
unless a name of the run looks like a numbered form of another one, the numbers count occurrences.
-/

set_option autoImplicit false

namespace SettingsSweep.NameRegistry

/-- The last underscore splits a text in one way. -/
theorem append_cons_inj_of_last {α : Type} {c : α} {l₁ l₂ d₁ d₂ : List α} (h₁ : c ∉ d₁) (h₂ : c ∉ d₂)
    (h : l₁ ++ c :: d₁ = l₂ ++ c :: d₂) : l₁ = l₂ ∧ d₁ = d₂ := by
  rcases List.append_eq_append_iff.1 h with ⟨a, ha, hd⟩ | ⟨a, ha, hd⟩
  · cases a with
    | nil => exact ⟨by simpa using ha.symm, (List.cons.inj hd).2⟩
    | cons b a =>
      have hm : d₁ = a ++ c :: d₂ := (List.cons.inj hd).2
      exact absurd (hm ▸ by simp) h₁
  · cases a with
    | nil => exact ⟨by simpa using ha, (List.cons.inj hd).2.symm⟩
    | cons b a =>
      have hm : d₂ = a ++ c :: d₁ := (List.cons.inj hd).2
      exact absurd (hm ▸ by simp) h₂

theorem toList_candidate (stem extension : String) (n : Nat) :
    (candidate stem extension n).toList =
      (stem.toList ++ '_' :: Nat.toDigits 10 n) ++ extension.toList := by
  simp [candidate, Nat.toString_eq_repr, Nat.toList_repr]

theorem candidate_inj {stem stem' extension : String} {m n : Nat}
    (h : candidate stem extension m = candidate stem' extension n) : stem = stem' ∧ m = n := by
  have hl := congrArg String.toList h
  rw [toList_candidate, toList_candidate] at hl
  obtain ⟨hs, hd⟩ := append_cons_inj_of_last Nat.underscore_not_in_toDigits
    Nat.underscore_not_in_toDigits (List.append_cancel_right hl)
  refine ⟨String.toList_inj.1 hs, ?_⟩
  have hn := congrArg (fun digits => Nat.ofDigitChars 10 digits 0) hd
  simpa using hn

theorem candidate_injective (stem extension : String) :
    Function.Injective (candidate stem extension) :=
  fun _ _ h => (candidate_inj h).2

theorem candidate_ne (stem extension : String) (n : Nat) :
    candidate stem extension n ≠ stem ++ extension := by
  intro h
  have hl := congrArg (fun s => s.toList.length) h
  simp only [toList_candidate, String.toList_append, List.length_append, List.length_cons] at hl
  omega

theorem freeNumber_of_notMem {name : Nat → String} {taken : List String} {n : Nat}
    (h : name n ∉ taken) : freeNumber name taken n = n := by
  rw [freeNumber, dif_neg h]

theorem le_freeNumber (name : Nat → String) (taken : List String) (n : Nat) :
    n ≤ freeNumber name taken n := by
  fun_induction freeNumber name taken n with
  | case1 taken n h ih => omega
  | case2 taken n h => exact Nat.le_refl n

/-- A name that the search has erased is not met again, so erasing loses nothing. -/
theorem name_freeNumber_notMem {name : Nat → String} (inj : Function.Injective name)
    (taken : List String) (n : Nat) : name (freeNumber name taken n) ∉ taken := by
  fun_induction freeNumber name taken n with
  | case1 taken n h ih =>
    have hle := le_freeNumber name (taken.erase (name n)) (n + 1)
    have hne : name (freeNumber name (taken.erase (name n)) (n + 1)) ≠ name n := by
      intro he
      have := inj he
      omega
    exact fun hm => ih ((List.mem_erase_of_ne hne).2 hm)
  | case2 taken n h => exact h

def numbered (extension name : String) (n : Nat) : String :=
  candidate (splitExtension extension name).1 (splitExtension extension name).2 n

theorem splitExtension_append (stem extension : String) :
    splitExtension extension (stem ++ extension) = (stem, extension) := by
  by_cases he : extension = ""
  · subst he
    simp [splitExtension]
  · have hs : extension.toList.isSuffixOf (stem ++ extension).toList = true := by simp
    have hl : (stem ++ extension).length - extension.length = stem.toList.length := by
      rw [String.length_append, Nat.add_sub_cancel, String.length_toList]
    rw [splitExtension, if_pos ⟨he, hs⟩, hl, String.toList_append, List.take_left,
      String.ofList_toList]

theorem numbered_append (stem extension : String) (n : Nat) :
    numbered extension (stem ++ extension) n = candidate stem extension n := by
  simp [numbered, splitExtension_append]

theorem claim_asked (registry : NameRegistry) (options : NamingOptions) (name : String) :
    (registry.claim options name).1.asked = name :: registry.asked := by
  simp only [claim]
  split <;> rfl

theorem claim_taken (registry : NameRegistry) (options : NamingOptions) (name : String) :
    (registry.claim options name).1.taken =
      (registry.claim options name).2.name :: registry.taken := by
  simp only [claim]
  split <;> rfl

variable {options : NamingOptions}

theorem claim_of_free {registry : NameRegistry} {name : String} (options : NamingOptions)
    (asked : name ∉ registry.asked) (taken : name ∉ registry.taken) :
    (registry.claim options name).2 = ⟨name, false⟩ := by
  simp [claim, List.count_eq_zero_of_not_mem asked, taken]

theorem not_free_of_used {registry : NameRegistry} {name : String}
    (used : name ∈ registry.asked ∨ name ∈ registry.taken) :
    ¬ (registry.asked.count name + 1 = 1 ∧ name ∉ registry.taken) := by
  rintro ⟨hc, ht⟩
  have ha : name ∉ registry.asked := List.count_eq_zero.1 (by omega)
  exact used.elim ha ht

theorem claim_of_used {registry : NameRegistry} {name : String}
    (policy : options.onDuplicate = .suffix) (used : name ∈ registry.asked ∨ name ∈ registry.taken) :
    (registry.claim options name).2 =
      ⟨nextFree registry.taken options.extension name (max (registry.asked.count name + 1) 2),
        true⟩ := by
  simp only [claim, if_neg (not_free_of_used used), policy]

theorem nextFree_eq (taken : List String) (extension name : String) (start : Nat) :
    nextFree taken extension name start =
      numbered extension name (freeNumber (numbered extension name) taken start) := rfl

/-- Either a name is given out as it is asked for, or with a number that counts at least the times it
    was asked for. In both cases it was free. -/
theorem claim_suffix (policy : options.onDuplicate = .suffix) (registry : NameRegistry)
    (name : String) :
    (registry.claim options name).2.name ∉ registry.taken ∧
      ((registry.claim options name).2.name = name ∨
        ∃ n, 2 ≤ n ∧ registry.asked.count name + 1 ≤ n ∧
          (registry.claim options name).2.name = numbered options.extension name n) := by
  by_cases used : name ∈ registry.asked ∨ name ∈ registry.taken
  · have hn := le_freeNumber (numbered options.extension name) registry.taken
      (max (registry.asked.count name + 1) 2)
    rw [claim_of_used policy used, nextFree_eq]
    exact ⟨name_freeNumber_notMem (candidate_injective _ _) _ _,
      .inr ⟨_, by omega, by omega, rfl⟩⟩
  · rw [not_or] at used
    rw [claim_of_free options used.1 used.2]
    exact ⟨used.2, .inl rfl⟩

/-- The registry once a list of names has been asked for. -/
def after (options : NamingOptions) (registry : NameRegistry) (names : List String) :
    NameRegistry :=
  names.foldl (fun r name => (r.claim options name).1) registry

def claims (options : NamingOptions) : NameRegistry → List String → List Claim
  | _, [] => []
  | registry, name :: names =>
    (registry.claim options name).2 :: claims options (registry.claim options name).1 names

@[simp]
theorem length_claims (registry : NameRegistry) (names : List String) :
    (claims options registry names).length = names.length := by
  induction names generalizing registry with
  | nil => rfl
  | cons name names ih => simp [claims, ih]

theorem claims_getElem? (registry : NameRegistry) (names : List String) (i : Nat) :
    (claims options registry names)[i]? =
      names[i]?.map fun name => ((after options registry (names.take i)).claim options name).2 := by
  induction names generalizing registry i with
  | nil => simp [claims]
  | cons name names ih =>
    cases i with
    | zero => simp [claims, after]
    | succ i => simpa [claims, after] using ih _ i

theorem claims_warn (policy : options.onDuplicate = .warn) (registry : NameRegistry)
    (names : List String) : (claims options registry names).map (·.name) = names := by
  induction names generalizing registry with
  | nil => rfl
  | cons name names ih =>
    have first : (registry.claim options name).2.name = name := by
      simp only [claim, policy]
      split <;> rfl
    rw [claims, List.map_cons, first, ih]

theorem after_asked (registry : NameRegistry) (names : List String) :
    (after options registry names).asked = names.reverse ++ registry.asked := by
  induction names generalizing registry with
  | nil => rfl
  | cons name names ih =>
    change (after options (registry.claim options name).1 names).asked = _
    rw [ih, claim_asked]
    simp

theorem claims_notMem_taken {c : Claim} (policy : options.onDuplicate = .suffix)
    (registry : NameRegistry) (names : List String) (h : c ∈ claims options registry names) :
    c.name ∉ registry.taken := by
  induction names generalizing registry with
  | nil => simp [claims] at h
  | cons name names ih =>
    rcases List.mem_cons.1 h with rfl | h
    · exact (claim_suffix policy registry name).1
    · intro ht
      apply ih _ h
      rw [claim_taken]
      exact List.mem_cons_of_mem _ ht

theorem nodup_claims (policy : options.onDuplicate = .suffix) (registry : NameRegistry)
    (names : List String) : ((claims options registry names).map (·.name)).Nodup := by
  induction names generalizing registry with
  | nil => simp [claims]
  | cons name names ih =>
    refine List.nodup_cons.2 ⟨?_, ih _⟩
    intro hm
    obtain ⟨c, hc, he⟩ := List.mem_map.1 hm
    apply claims_notMem_taken policy _ names hc
    rw [claim_taken, he]
    exact List.mem_cons_self

/-- Names with one extension, none of which is a numbered form of another. -/
structure Unmixed (extension : String) (names : List String) : Prop where
  extended : ∀ a ∈ names, ∃ stem, a = stem ++ extension
  apart : ∀ a ∈ names, ∀ b ∈ names, a ≠ b → ∀ n, 2 ≤ n → a ≠ numbered extension b n

/-- Whatever is taken was asked for, or is a numbered form of a name that was asked for at least that
    many times. -/
def Accounted (extension : String) (registry : NameRegistry) : Prop :=
  ∀ t ∈ registry.taken, t ∈ registry.asked ∨
    ∃ name ∈ registry.asked, ∃ n, 2 ≤ n ∧ n ≤ registry.asked.count name ∧
      t = numbered extension name n

/-- What the `k`-th to ask for a name is given. -/
def occurrence (extension name : String) (k : Nat) : String :=
  if k = 1 then name else numbered extension name k

namespace Unmixed

variable {extension : String} {names : List String}

theorem mono (h : Unmixed extension names) {some : List String} (hs : ∀ a ∈ some, a ∈ names) :
    Unmixed extension some :=
  ⟨fun a ha => h.extended a (hs a ha), fun a ha b hb => h.apart a (hs a ha) b (hs b hb)⟩

theorem numbered_inj (h : Unmixed extension names) {a b : String} (ha : a ∈ names)
    (hb : b ∈ names) {m n : Nat} (he : numbered extension a m = numbered extension b n) :
    a = b ∧ m = n := by
  obtain ⟨s, rfl⟩ := h.extended a ha
  obtain ⟨t, rfl⟩ := h.extended b hb
  rw [numbered_append, numbered_append] at he
  obtain ⟨rfl, rfl⟩ := candidate_inj he
  exact ⟨rfl, rfl⟩

theorem numbered_notMem (h : Unmixed extension names) {a : String} (ha : a ∈ names) {n : Nat}
    (hn : 2 ≤ n) : numbered extension a n ∉ names := by
  intro hm
  by_cases he : numbered extension a n = a
  · obtain ⟨s, rfl⟩ := h.extended a ha
    rw [numbered_append] at he
    exact candidate_ne s extension n he
  · exact h.apart _ hm a ha he n hn rfl

end Unmixed

theorem claim_occurrence {registry : NameRegistry} {name : String}
    (policy : options.onDuplicate = .suffix)
    (unmixed : Unmixed options.extension (name :: registry.asked))
    (accounted : Accounted options.extension registry) :
    (registry.claim options name).2.name =
      occurrence options.extension name (registry.asked.count name + 1) := by
  by_cases asked : name ∈ registry.asked
  · have hk : 2 ≤ registry.asked.count name + 1 := by
      have := List.count_pos_iff.2 asked
      omega
    have free : numbered options.extension name (registry.asked.count name + 1) ∉
        registry.taken := by
      intro ht
      rcases accounted _ ht with hm | ⟨b, hb, n, -, hn, he⟩
      · exact unmixed.numbered_notMem List.mem_cons_self hk (List.mem_cons_of_mem _ hm)
      · obtain ⟨rfl, rfl⟩ := unmixed.numbered_inj List.mem_cons_self (List.mem_cons_of_mem _ hb) he
        omega
    rw [claim_of_used policy (.inl asked), Nat.max_eq_left hk, nextFree_eq,
      freeNumber_of_notMem free, occurrence, if_neg (by omega)]
  · have free : name ∉ registry.taken := by
      intro ht
      rcases accounted _ ht with hm | ⟨b, hb, n, hn, -, he⟩
      · exact asked hm
      · have hne : name ≠ b := fun e => asked (e ▸ hb)
        exact unmixed.apart name List.mem_cons_self b (List.mem_cons_of_mem _ hb) hne n hn he
    rw [claim_of_free options asked free, List.count_eq_zero_of_not_mem asked]
    rfl

theorem accounted_claim {registry : NameRegistry} {name : String}
    (policy : options.onDuplicate = .suffix)
    (unmixed : Unmixed options.extension (name :: registry.asked))
    (accounted : Accounted options.extension registry) :
    Accounted options.extension (registry.claim options name).1 := by
  intro t ht
  rw [claim_taken, claim_occurrence policy unmixed accounted] at ht
  rw [claim_asked]
  rcases List.mem_cons.1 ht with rfl | ht
  · unfold occurrence
    split
    · exact .inl List.mem_cons_self
    · exact .inr ⟨name, List.mem_cons_self, _, by omega, by simp, rfl⟩
  · rcases accounted t ht with hm | ⟨b, hb, n, hn, hc, he⟩
    · exact .inl (List.mem_cons_of_mem _ hm)
    · exact .inr ⟨b, List.mem_cons_of_mem _ hb, n, hn,
        Nat.le_trans hc List.count_le_count_cons, he⟩

theorem accounted_after (policy : options.onDuplicate = .suffix) (registry : NameRegistry)
    (names : List String) (unmixed : Unmixed options.extension (names.reverse ++ registry.asked))
    (accounted : Accounted options.extension registry) :
    Accounted options.extension (after options registry names) := by
  induction names generalizing registry with
  | nil => exact accounted
  | cons name names ih =>
    have step : Unmixed options.extension (name :: registry.asked) :=
      unmixed.mono (by simp; tauto)
    refine ih _ ?_ (accounted_claim policy step accounted)
    rw [claim_asked]
    simpa using unmixed

/-- In a run of unmixed names the `k`-th to ask for a name gets its `k`-th form. -/
theorem claims_occurrence (policy : options.onDuplicate = .suffix) {names : List String}
    (unmixed : Unmixed options.extension names) {i : Nat} {name : String} (h : names[i]? = some name) :
    ((claims options {} names)[i]?).map (·.name) =
      some (occurrence options.extension name ((names.take (i + 1)).count name)) := by
  have asked : (after options {} (names.take i)).asked = (names.take i).reverse := by
    simp [after_asked]
  have before : Unmixed options.extension (names.take i).reverse :=
    unmixed.mono fun a ha => List.mem_of_mem_take (List.mem_reverse.1 ha)
  have accounted : Accounted options.extension (after options {} (names.take i)) :=
    accounted_after policy {} _ (by simpa using before) (fun t ht => absurd ht (by simp))
  have step : Unmixed options.extension (name :: (after options {} (names.take i)).asked) := by
    rw [asked]
    refine unmixed.mono fun a ha => ?_
    rcases List.mem_cons.1 ha with rfl | ha
    · exact List.mem_of_getElem? h
    · exact List.mem_of_mem_take (List.mem_reverse.1 ha)
  have count : (names.take (i + 1)).count name = (names.take i).count name + 1 := by
    rw [List.take_add_one, h]
    simp
  rw [claims_getElem?, h, count]
  simp only [Option.map_some, claim_occurrence policy step accounted, asked, List.count_reverse]

end SettingsSweep.NameRegistry

/-!
Dictionaries that keep the order in which keys were first put. Main statements: what is found after
`put` and `remove`, and that neither moves another key.
-/

set_option autoImplicit false

namespace SettingsSweep

abbrev Dict (α : Type) := List (String × α)

namespace Dict

variable {α : Type}

def find? (key : String) : Dict α → Option α
  | [] => none
  | (k, v) :: rest => if k = key then some v else find? key rest

def keys (d : Dict α) : List String := d.map Prod.fst

def has (key : String) (d : Dict α) : Bool := (d.find? key).isSome

/-- A known key keeps its place, a new one comes last. -/
def put (key : String) (value : α) : Dict α → Dict α
  | [] => [(key, value)]
  | (k, v) :: rest => if k = key then (k, value) :: rest else (k, v) :: put key value rest

def remove (key : String) : Dict α → Dict α
  | [] => []
  | (k, v) :: rest => if k = key then remove key rest else (k, v) :: remove key rest

def putAll (d : Dict α) (entries : List (String × α)) : Dict α :=
  entries.foldl (fun d entry => d.put entry.1 entry.2) d

def ofList (entries : List (String × α)) : Dict α := putAll [] entries

/-- Entries in the order of their keys, each key once; a later value replaces an earlier one. -/
def putSorted (key : String) (value : α) : Dict α → Dict α
  | [] => [(key, value)]
  | (k, v) :: rest =>
    if k = key then (k, value) :: rest
    else if key < k then (key, value) :: (k, v) :: rest
    else (k, v) :: putSorted key value rest

def sorted (d : Dict α) : Dict α :=
  d.foldl (fun d entry => d.putSorted entry.1 entry.2) []

theorem mem_of_find? {key : String} {value : α} {d : Dict α} (h : d.find? key = some value) :
    (key, value) ∈ d := by
  induction d with
  | nil => cases h
  | cons entry d ih =>
    obtain ⟨k, v⟩ := entry
    rw [find?] at h
    split at h
    · next same =>
      cases h
      rw [same]
      exact List.mem_cons_self
    · exact List.mem_cons_of_mem _ (ih h)

theorem find?_eq_none_of_notMem {key : String} {d : Dict α} (h : key ∉ d.keys) : d.find? key = none := by
  cases found : d.find? key with
  | none => rfl
  | some value => exact absurd (List.mem_map.2 ⟨_, mem_of_find? found, rfl⟩) h

theorem find?_put_self (key : String) (value : α) (d : Dict α) :
    (d.put key value).find? key = some value := by
  induction d with
  | nil => simp [put, find?]
  | cons entry rest ih =>
    obtain ⟨k, v⟩ := entry
    by_cases h : k = key <;> simp [put, find?, h, ih]

theorem find?_put_of_ne {key other : String} (h : other ≠ key) (value : α) (d : Dict α) :
    (d.put key value).find? other = d.find? other := by
  induction d with
  | nil => simp [put, find?, Ne.symm h]
  | cons entry rest ih =>
    obtain ⟨k, v⟩ := entry
    by_cases hk : k = key
    · subst hk; simp [put, find?, Ne.symm h]
    · simp [put, find?, hk, ih]

theorem put_put (key : String) (value last : α) (d : Dict α) :
    (d.put key value).put key last = d.put key last := by
  induction d with
  | nil => simp [put]
  | cons entry rest ih =>
    obtain ⟨k, v⟩ := entry
    by_cases h : k = key <;> simp [put, h, ih]

theorem put_of_notMem {key : String} {d : Dict α} (h : key ∉ d.keys) (value : α) :
    d.put key value = d ++ [(key, value)] := by
  induction d with
  | nil => rfl
  | cons entry d ih =>
    rw [keys, List.map_cons, List.mem_cons, not_or] at h
    rw [put, if_neg (Ne.symm h.1), ih h.2, List.cons_append]

theorem find?_remove_self (key : String) (d : Dict α) : (d.remove key).find? key = none := by
  induction d with
  | nil => rfl
  | cons entry rest ih =>
    obtain ⟨k, v⟩ := entry
    by_cases hk : k = key <;> simp [remove, find?, hk, ih]

theorem find?_remove_of_ne {key other : String} (h : other ≠ key) (d : Dict α) :
    (d.remove key).find? other = d.find? other := by
  induction d with
  | nil => rfl
  | cons entry rest ih =>
    obtain ⟨k, v⟩ := entry
    by_cases hk : k = key
    · subst hk; simp [remove, find?, Ne.symm h, ih]
    · simp [remove, find?, hk, ih]

theorem keys_put (key : String) (value : α) (d : Dict α) :
    (d.put key value).keys = if key ∈ d.keys then d.keys else d.keys ++ [key] := by
  induction d with
  | nil => simp [put, keys]
  | cons entry rest ih =>
    obtain ⟨k, v⟩ := entry
    unfold keys at ih ⊢
    by_cases hk : k = key
    · simp [put, hk]
    · simp only [put, hk, if_false, List.map_cons, ih, List.mem_cons]
      by_cases hm : key ∈ rest.map Prod.fst <;> simp [hm, Ne.symm hk]

theorem nodup_keys_put {key : String} {value : α} {d : Dict α} (h : d.keys.Nodup) :
    (d.put key value).keys.Nodup := by
  rw [keys_put]
  split
  · exact h
  · next hk => exact List.nodup_append.2 ⟨h, by simp, by simp; exact fun a ha e => hk (e ▸ ha)⟩

theorem keys_remove (key : String) (d : Dict α) : (d.remove key).keys = d.keys.filter (· ≠ key) := by
  induction d with
  | nil => rfl
  | cons entry rest ih =>
    obtain ⟨k, v⟩ := entry
    unfold keys at ih ⊢
    by_cases hk : k = key <;> simp [remove, hk, ih]

end Dict

end SettingsSweep

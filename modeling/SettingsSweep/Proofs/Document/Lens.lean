import SettingsSweep.Proofs.Document.Path

/-!
A path as a lens on documents. What is set at a path is read there, nothing beside the path changes, objects on the way
keep their keys in order, and setting a second time does nothing. The one thing that can be lost is told: the first value
on the way that is no object.
-/

set_option autoImplicit false

namespace SettingsSweep.Document

/-- The object at a path, the document itself at the empty one. -/
def membersAt? : List String → Document → Option Document
  | [], doc => some doc
  | key :: keys, doc =>
    match doc.find? key with
    | some (.obj members) => membersAt? keys members
    | _ => none

theorem membersAt?_cons_eq_some {key : String} {keys : List String} {doc members : Document} :
    doc.membersAt? (key :: keys) = some members ↔
      ∃ below, doc.find? key = some (.obj below) ∧ membersAt? keys below = some members := by
  rw [membersAt?]
  split
  · next below found => simp [found]
  · next other =>
    simp only [reduceCtorEq, false_iff, not_exists, not_and]
    exact fun below found => absurd found (other below)

/-- The keys of an object on the way stay in place, and the key where the path goes on comes last if it is new. -/
theorem keys_membersAt?_setAt {above below : List String} {key : String} {doc members : Document}
    (value : Json) (h : doc.membersAt? above = some members) :
    ∃ changed, (doc.setAt (above ++ key :: below) value).membersAt? above = some changed ∧
      changed.keys = if key ∈ members.keys then members.keys else members.keys ++ [key] := by
  induction above generalizing doc with
  | nil =>
    obtain rfl : doc = members := Option.some.inj h
    cases below with
    | nil => exact ⟨_, rfl, Dict.keys_put key value doc⟩
    | cons next below => exact ⟨_, rfl, Dict.keys_put key _ doc⟩
  | cons first above ih =>
    obtain ⟨inner, found, h⟩ := membersAt?_cons_eq_some.1 h
    obtain ⟨changed, there, keys⟩ := ih h
    have inside : doc.objectAt first = inner := by rw [objectAt, found]
    refine ⟨changed, ?_, keys⟩
    rw [List.cons_append, setAt_cons first (by simp), inside]
    exact membersAt?_cons_eq_some.2 ⟨_, Dict.find?_put_self first _ doc, there⟩

theorem membersAt?_setAt_of_not_overlap {path place : List String} (h : ¬ Overlap place path) (value : Json)
    (doc : Document) : (doc.setAt path value).membersAt? place = doc.membersAt? place := by
  cases place with
  | nil => exact absurd (Overlap.nil_left path) h
  | cons first rest =>
    induction path generalizing first rest doc with
    | nil => exact absurd (Overlap.nil_right _) h
    | cons key keys ih =>
      by_cases same : first = key
      · subst same
        rw [Overlap.cons_iff] at h
        have last : keys ≠ [] := fun none => h (none ▸ Overlap.nil_right rest)
        cases rest with
        | nil => exact absurd (Overlap.nil_left keys) h
        | cons next rest =>
          rw [setAt_cons first last, membersAt?, membersAt?, Dict.find?_put_self]
          dsimp only
          rw [ih _ next rest h, objectAt]
          cases doc.find? first with
          | none => rfl
          | some held => cases held <;> rfl
      · have apart : (key :: keys).head? ≠ some first := by simpa using Ne.symm same
        rw [membersAt?, membersAt?, find?_setAt_of_head_ne apart]

/-- An object that is not replaced as a whole keeps its keys in order. Only on the way to the path does it get a key,
    where the path goes on, and a new one comes last. -/
theorem exists_membersAt?_setAt {path place : List String} {doc members : Document} (value : Json)
    (h : doc.membersAt? place = some members) (kept : ¬ path <+: place) :
    ∃ changed, (doc.setAt path value).membersAt? place = some changed ∧
      ((∃ key below, path = place ++ key :: below ∧
          changed.keys = if key ∈ members.keys then members.keys else members.keys ++ [key]) ∨
        ¬ place <+: path ∧ changed = members) := by
  by_cases leads : place <+: path
  · obtain ⟨rest, rfl⟩ := leads
    cases rest with
    | nil => exact absurd (by simp) kept
    | cons key below =>
      obtain ⟨changed, there, keys⟩ := keys_membersAt?_setAt value h
      exact ⟨changed, there, .inl ⟨key, below, rfl, keys⟩⟩
  · have beside : ¬ Overlap place path := not_or.2 ⟨leads, kept⟩
    exact ⟨members, (membersAt?_setAt_of_not_overlap beside value doc).trans h, .inr ⟨leads, rfl⟩⟩

/-- A part of a path, short of the whole, that holds something other than an object. -/
structure InTheWay (path : List String) (doc : Document) (part : List String) : Prop where
  leads : part <+: path
  short : part ≠ path
  held : ∃ value, doc.getAt? part = some value ∧ value.object? = none

theorem inTheWay_cons {key next : String} {keys part : List String} {doc : Document} :
    InTheWay (key :: next :: keys) doc part ↔
      (part = [key] ∧ ∃ value, doc.find? key = some value ∧ value.object? = none) ∨
      ∃ members below, part = key :: below ∧ doc.find? key = some (.obj members) ∧
        InTheWay (next :: keys) members below := by
  constructor
  · rintro ⟨leads, short, value, read, plain⟩
    cases part with
    | nil => cases read
    | cons first below =>
      obtain ⟨rfl, onward⟩ := List.cons_prefix_cons.1 leads
      cases below with
      | nil => exact .inl ⟨rfl, value, read, plain⟩
      | cons second below =>
        rw [getAt?] at read
        · split at read
          · next members found =>
            refine .inr ⟨members, _, rfl, found, onward, ?_, value, read, plain⟩
            exact fun same => short (congrArg (first :: ·) same)
          · cases read
        · exact List.cons_ne_nil second below
  · rintro (⟨rfl, value, found, plain⟩ | ⟨members, below, rfl, found, leads, short, value, read, plain⟩)
    · exact ⟨by simp, by simp, value, found, plain⟩
    · refine ⟨List.cons_prefix_cons.2 ⟨rfl, leads⟩, fun same => short (List.cons.inj same).2,
        value, ?_, plain⟩
      cases below with
      | nil => cases read
      | cons second below =>
        unfold getAt?
        rw [found]
        exact read

/-- Nothing is read below a value that is no object, so there is no more than one in the way. -/
theorem obstacle?_eq_some_iff {path part : List String} {doc : Document} :
    doc.obstacle? path = some part ↔ InTheWay path doc part := by
  induction path generalizing doc part with
  | nil =>
    simp only [obstacle?, reduceCtorEq, false_iff]
    rintro ⟨leads, short, -⟩
    exact short (List.prefix_nil.1 leads)
  | cons key keys ih =>
    cases keys with
    | nil =>
      simp only [obstacle?, reduceCtorEq, false_iff]
      rintro ⟨leads, short, value, read, -⟩
      cases part with
      | nil => cases read
      | cons first below =>
        obtain ⟨rfl, onward⟩ := List.cons_prefix_cons.1 leads
        exact short (congrArg _ (List.prefix_nil.1 onward))
    | cons next keys =>
      rw [inTheWay_cons]
      cases found : doc.find? key with
      | none => simp [obstacle?, found]
      | some value =>
        cases value with
        | obj members =>
          simp only [obstacle?, found, Option.map_eq_some_iff, ih]
          simp [Json.object?, eq_comm, and_comm]
        | _ => simp [obstacle?, found, Json.object?, eq_comm]

theorem setWarnings_eq (path : String) (doc : Document) :
    (∀ part, ¬ InTheWay (Text.segments path) doc part) ∧ doc.setWarnings path = [] ∨
    ∃ part, InTheWay (Text.segments path) doc part ∧
      (∀ other, InTheWay (Text.segments path) doc other → part <+: other) ∧
      doc.setWarnings path = [.replacedIntermediate path (Text.ofSegments part)] := by
  unfold setWarnings
  cases way : doc.obstacle? (Text.segments path) with
  | none =>
    refine .inl ⟨fun part h => ?_, rfl⟩
    rw [obstacle?_eq_some_iff.2 h] at way
    cases way
  | some part =>
    refine .inr ⟨part, obstacle?_eq_some_iff.1 way, fun other h => ?_, rfl⟩
    rw [obstacle?_eq_some_iff.2 h] at way
    exact Option.some.inj way ▸ List.prefix_rfl

theorem setAt_setAt (path : List String) (value : Json) (doc : Document) :
    (doc.setAt path value).setAt path value = doc.setAt path value := by
  induction path generalizing doc with
  | nil => rfl
  | cons key keys ih =>
    by_cases last : keys = []
    · subst last
      exact Dict.put_put key value value doc
    · rw [setAt_cons key last, setAt_cons key last, objectAt_put_self, ih, Dict.put_put]

theorem obstacle?_setAt (path : List String) (value : Json) (doc : Document) :
    (doc.setAt path value).obstacle? path = none := by
  induction path generalizing doc with
  | nil => rfl
  | cons key keys ih =>
    cases keys with
    | nil => rfl
    | cons next keys =>
      have ne := List.cons_ne_nil next keys
      rw [setAt_cons key ne, obstacle?, Dict.find?_put_self]
      · simp [ih]
      · exact ne

theorem set_lens (path : String) (value : Json) (doc : Document) :
    doc.setPath path value = (doc.set path value, doc.setWarnings path) ∧
    (doc.set path value).get? path = some value ∧
    (∀ other, ¬ Overlap other (Text.segments path) →
      (doc.set path value).getAt? other = doc.getAt? other) ∧
    (∀ place members, doc.membersAt? place = some members → ¬ Text.segments path <+: place →
      ∃ changed, (doc.set path value).membersAt? place = some changed ∧
        ((∃ key below, Text.segments path = place ++ key :: below ∧
            changed.keys = if key ∈ members.keys then members.keys else members.keys ++ [key]) ∨
          ¬ place <+: Text.segments path ∧ changed = members)) ∧
    ((∀ part, ¬ InTheWay (Text.segments path) doc part) ∧ doc.setWarnings path = [] ∨
      ∃ part, InTheWay (Text.segments path) doc part ∧
        (∀ other, InTheWay (Text.segments path) doc other → part <+: other) ∧
        doc.setWarnings path = [.replacedIntermediate path (Text.ofSegments part)]) ∧
    (doc.set path value).set path value = doc.set path value ∧
    (doc.set path value).setWarnings path = [] := by
  refine ⟨setPath_eq path value doc, getAt?_setAt_self (Text.segments_ne_nil path) value doc, ?_, ?_,
    setWarnings_eq path doc, setAt_setAt _ value doc, ?_⟩
  · intro other beside
    exact getAt?_setAt_of_not_overlap beside value doc
  · intro place members h kept
    exact exists_membersAt?_setAt value h kept
  · rw [setWarnings, set, obstacle?_setAt]
    rfl

end SettingsSweep.Document

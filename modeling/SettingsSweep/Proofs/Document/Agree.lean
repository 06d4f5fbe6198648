import SettingsSweep.Proofs.Document.Path

/-!
Documents that agree but for the values of some keys. What is written, put or removed on both sides keeps
them so, and once these keys are gone the documents are equal.
-/

set_option autoImplicit false

namespace SettingsSweep

namespace Dict

variable {α : Type}

/-- The same keys in the same order, and the same values but for those of hidden keys. Of a key that
    stands twice only the first value is hidden, as that is the one that is written. -/
inductive AgreeBut : (String → Prop) → Dict α → Dict α → Prop
  | nil {hidden : String → Prop} : AgreeBut hidden [] []
  | cons {hidden : String → Prop} {key : String} {v w : α} {d e : Dict α}
      (same : ¬ hidden key → v = w) (rest : AgreeBut (fun k => hidden k ∧ k ≠ key) d e) :
      AgreeBut hidden ((key, v) :: d) ((key, w) :: e)

namespace AgreeBut

variable {hidden : String → Prop} {d e : Dict α}

theorem refl (hidden : String → Prop) (d : Dict α) : AgreeBut hidden d d := by
  induction d generalizing hidden with
  | nil => exact .nil
  | cons entry d ih => exact .cons (fun _ => rfl) (ih _)

theorem mono {hidden' : String → Prop} (h : AgreeBut hidden d e)
    (le : ∀ key, hidden key → hidden' key) : AgreeBut hidden' d e := by
  induction h generalizing hidden' with
  | nil => exact .nil
  | cons same rest ih =>
    refine .cons (fun hk => same fun hh => hk (le _ hh)) (ih ?_)
    intro key hk
    exact ⟨le key hk.1, hk.2⟩

theorem put {hidden' : String → Prop} {key : String} {v w : α} (h : AgreeBut hidden d e)
    (same : ¬ hidden' key → v = w) (le : ∀ k, k ≠ key → hidden k → hidden' k) :
    AgreeBut hidden' (d.put key v) (e.put key w) := by
  induction h generalizing hidden' with
  | nil => exact .cons same .nil
  | @cons hidden k v' w' d e same' rest ih =>
    by_cases hk : k = key
    · subst hk
      -- A later entry of the key was never hidden, so it agrees as before.
      rw [Dict.put, Dict.put, if_pos rfl, if_pos rfl]
      refine .cons same (rest.mono ?_)
      intro j hj
      exact ⟨le j hj.2 hj.1, hj.2⟩
    · rw [Dict.put, Dict.put, if_neg hk, if_neg hk]
      refine .cons (fun hh => same' fun hs => hh (le k hk hs)) (ih ?_ ?_)
      · intro hh
        exact same fun hs => hh ⟨hs, Ne.symm hk⟩
      · intro j hj hh
        exact ⟨le j hj hh.1, hh.2⟩

theorem remove (h : AgreeBut hidden d e) (key : String) :
    AgreeBut hidden (d.remove key) (e.remove key) := by
  induction h with
  | nil => exact .nil
  | @cons hidden k v w d e same rest ih =>
    by_cases hk : k = key
    · rw [Dict.remove, Dict.remove, if_pos hk, if_pos hk]
      exact ih.mono fun j hj => hj.1
    · rw [Dict.remove, Dict.remove, if_neg hk, if_neg hk]
      exact .cons same ih

theorem find?_eq (h : AgreeBut hidden d e) {key : String} (hk : ¬ hidden key) :
    d.find? key = e.find? key := by
  induction h with
  | nil => rfl
  | @cons hidden k v w d e same rest ih =>
    rw [Dict.find?, Dict.find?]
    by_cases he : k = key
    · subst he
      rw [if_pos rfl, if_pos rfl, same hk]
    · rw [if_neg he, if_neg he]
      exact ih fun hh => hk hh.1

theorem find?_eq_none_iff (h : AgreeBut hidden d e) (key : String) :
    d.find? key = none ↔ e.find? key = none := by
  induction h with
  | nil => rfl
  | @cons hidden k v w d e same rest ih =>
    rw [Dict.find?, Dict.find?]
    by_cases he : k = key
    · simp [he]
    · rw [if_neg he, if_neg he]
      exact ih

theorem eq_of_absent (h : AgreeBut hidden d e) (absent : ∀ key, hidden key → d.find? key = none) :
    d = e := by
  induction h with
  | nil => rfl
  | @cons hidden k v w d e same rest ih =>
    have hk : ¬ hidden k := fun hh => by simpa [Dict.find?] using absent k hh
    rw [same hk, ih ?_]
    intro key hh
    have := absent key hh.1
    rwa [Dict.find?, if_neg (Ne.symm hh.2)] at this

end AgreeBut

end Dict

namespace Document

variable {hidden : String → Prop} {d e : Document}

theorem agreeBut_setAt {path : List String} {v w : Json} (h : Dict.AgreeBut hidden d e)
    (same : ∀ key, path.head? = some key → ¬ hidden key → v = w) :
    Dict.AgreeBut hidden (d.setAt path v) (e.setAt path w) := by
  cases path with
  | nil => exact h
  | cons key keys =>
    have le : ∀ k, k ≠ key → hidden k → hidden k := fun k _ hk => hk
    cases keys with
    | nil => exact h.put (same key rfl) le
    | cons next keys =>
      refine h.put (fun hk => ?_) le
      rw [objectAt, objectAt, h.find?_eq hk, same key rfl hk]

end Document

end SettingsSweep

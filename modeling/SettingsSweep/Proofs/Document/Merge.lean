import SettingsSweep.Document.Merge
import SettingsSweep.Proofs.Document.Path

/-!
Merging read at a key without dots. A member that does not lead there leaves the key alone, and a member of that name
that is no object is what is found there.
-/

set_option autoImplicit false

namespace SettingsSweep.Document

theorem merge_eq_foldl (doc : Document) (overrides : List (String × Json)) :
    (doc.merge overrides).1 = overrides.foldl (fun d m => (d.mergeMember m.1 m.2).1) doc := by
  induction overrides generalizing doc with
  | nil => rfl
  | cons member overrides ih =>
    change ((doc.mergeMember member.1 member.2).1.merge overrides).1 = _
    rw [ih]
    rfl

section

variable {key : String} (plain : '.' ∉ key.toList)

include plain

theorem ne_of_head?_segments_ne {other : String} (h : (Text.segments other).head? ≠ some key) :
    key ≠ other := by
  rintro rfl
  rw [Text.segments_of_notMem plain] at h
  exact h rfl

theorem find?_write_of_head_ne {other : String} (h : (Text.segments other).head? ≠ some key)
    (value : Json) (doc : Document) : (doc.write other value).1.find? key = doc.find? key := by
  unfold write
  split
  · rw [setPath_eq]
    exact find?_setAt_of_head_ne h value doc
  · exact Dict.find?_put_of_ne (ne_of_head?_segments_ne plain h) value doc

theorem find?_mergeMember_of_head_ne {other : String} (h : (Text.segments other).head? ≠ some key)
    (value : Json) (doc : Document) :
    (doc.mergeMember other value).1.find? key = doc.find? key := by
  cases value with
  | obj incoming =>
    rw [mergeMember]
    split
    · exact Dict.find?_put_of_ne (ne_of_head?_segments_ne plain h) _ doc
    · exact find?_write_of_head_ne plain h _ doc
  | _ => exact find?_write_of_head_ne plain h _ doc

theorem find?_mergeMember_self {value : Json} (h : value.object? = none) (doc : Document) :
    (doc.mergeMember key value).1.find? key = some value := by
  have written : (doc.write key value).1.find? key = some value := by
    have path : isPath key = false := decide_eq_false plain
    rw [write, path]
    exact Dict.find?_put_self key value doc
  cases value with
  | obj members => cases h
  | _ => exact written

theorem find?_merge_of_head_ne {overrides : List (String × Json)}
    (h : ∀ m ∈ overrides, (Text.segments m.1).head? ≠ some key) (doc : Document) :
    (doc.merge overrides).1.find? key = doc.find? key := by
  rw [merge_eq_foldl]
  induction overrides generalizing doc with
  | nil => rfl
  | cons member overrides ih =>
    rw [List.foldl_cons, ih fun m hm => h m (List.mem_cons_of_mem _ hm)]
    exact find?_mergeMember_of_head_ne plain (h member List.mem_cons_self) _ doc

/-- The last member that leads to a key decides on its value. -/
theorem find?_merge_of_last {before after : List (String × Json)} {value : Json}
    (h : value.object? = none) (last : ∀ m ∈ after, (Text.segments m.1).head? ≠ some key)
    (doc : Document) : (doc.merge (before ++ (key, value) :: after)).1.find? key = some value := by
  have rest (d : Document) := find?_merge_of_head_ne plain last d
  simp only [merge_eq_foldl] at rest ⊢
  rw [List.foldl_append, List.foldl_cons, rest]
  exact find?_mergeMember_self plain h _

end

end SettingsSweep.Document

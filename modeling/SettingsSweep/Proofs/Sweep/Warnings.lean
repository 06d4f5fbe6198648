import SettingsSweep.Proofs.Sweep.Clock

/-!
Where the warnings of a run come from. Each step of a sweep gives warnings of its own kind, so a kind that one
step alone can give is traced back to that step.
-/

set_option autoImplicit false

namespace SettingsSweep

theorem Warning.mem_addNew {w : Warning} {warnings more : List Warning} :
    w ∈ addNew warnings more ↔ w ∈ warnings ∨ w ∈ more := by
  induction more generalizing warnings with
  | nil => simp [addNew]
  | cons first more ih =>
    change w ∈ addNew (if first ∈ warnings then warnings else warnings ++ [first]) more ↔ _
    rw [ih]
    by_cases known : first ∈ warnings
    · rw [if_pos known, List.mem_cons]
      constructor
      · rintro (h | h)
        · exact .inl h
        · exact .inr (.inr h)
      · rintro (h | rfl | h)
        · exact .inl h
        · exact .inl known
        · exact .inr h
    · rw [if_neg known, List.mem_append, List.mem_singleton, List.mem_cons, or_assoc]

namespace Document

theorem exists_of_mem_setPath {path : String} {value : Json} {doc : Document} {w : Warning}
    (h : w ∈ (doc.setPath path value).2) : ∃ segment, w = .replacedIntermediate path segment := by
  rw [setPath_eq] at h
  obtain ⟨keys, -, rfl⟩ := List.mem_map.1 h
  exact ⟨_, rfl⟩

theorem exists_of_mem_write {key : String} {value : Json} {doc : Document} {w : Warning}
    (h : w ∈ (doc.write key value).2) : ∃ path segment, w = .replacedIntermediate path segment := by
  unfold write at h
  split at h
  · exact ⟨key, exists_of_mem_setPath h⟩
  · exact absurd h List.not_mem_nil

mutual

theorem exists_of_mem_merge {w : Warning} (doc : Document) : ∀ overrides : List (String × Json),
    w ∈ (merge doc overrides).2 → ∃ path segment, w = .replacedIntermediate path segment
  | [], h => absurd h List.not_mem_nil
  | (key, value) :: overrides, h => by
    rw [merge] at h
    rcases List.mem_append.1 h with h | h
    · exact exists_of_mem_mergeMember doc key value h
    · exact exists_of_mem_merge _ overrides h

theorem exists_of_mem_mergeMember {w : Warning} (doc : Document) (key : String) : ∀ value : Json,
    w ∈ (mergeMember doc key value).2 → ∃ path segment, w = .replacedIntermediate path segment
  | .obj incoming, h => by
    rw [mergeMember] at h
    split at h
    · exact exists_of_mem_merge _ incoming h
    · exact exists_of_mem_write h
  | .null, h | .bool _, h | .int _, h | .real _, h | .str _, h | .arr _, h => exists_of_mem_write h

end

end Document

theorem Axis.exists_of_mem_warnings {axis : Axis} {catalog : Catalog} {w : Warning}
    (h : w ∈ (axis.resolve catalog).warnings) :
    (∃ r, w = .range axis.name r) ∨ ∃ choice, w = .unknownChoice axis.name axis.path choice := by
  have ofExpression : ∀ {expression : String},
      w ∈ (Contribution.ofExpression axis.name expression).warnings → ∃ r, w = .range axis.name r := by
    intro expression h
    obtain ⟨r, -, rfl⟩ := List.mem_map.1 h
    exact ⟨r, rfl⟩
  by_cases field : axis.hasField = true
  · rw [resolve_eq field] at h
    obtain ⟨part, hp, h⟩ := List.mem_flatMap.1 h
    unfold contributions at hp
    split at hp
    · obtain ⟨choice, -, rfl⟩ := List.mem_map.1 hp
      simp only [Contribution.ofChoice] at h
      split at h
      · exact absurd h List.not_mem_nil
      · dsimp only at h
        split at h
        · exact .inr ⟨_, List.mem_singleton.1 h⟩
        · exact absurd h List.not_mem_nil
    · obtain ⟨expression, -, rfl⟩ := List.mem_map.1 hp
      unfold Contribution.ofPromptRow at h
      split at h
      · exact absurd h List.not_mem_nil
      · exact .inl (ofExpression h)
    · obtain ⟨expression, -, rfl⟩ := List.mem_map.1 hp
      exact .inl (ofExpression h)
  · simp [resolve, field] at h

namespace Draft

theorem exists_of_mem_replacement {axis : AxisName} {value : Scalar} {w : Warning}
    (h : w ∈ (Prompts.replacement axis value).2) : w = .promptOverride axis value.display := by
  unfold Prompts.replacement at h
  dsimp only at h
  split at h
  · split at h
    · exact absurd h List.not_mem_nil
    · exact List.mem_singleton.1 h
  · exact absurd h List.not_mem_nil

theorem mem_assign {draft : Draft} {a : Assignment} {w : Warning} (h : w ∈ (draft.assign a).2) :
    (∃ segment, w = .replacedIntermediate a.field segment) ∨
      a.kind = .prompts ∧ a.mode = .override ∧ w ∈ (Prompts.replacement a.axis a.value).2 := by
  unfold assign at h
  split at h
  · next kind =>
    cases mode : a.mode with
    | append => simp [Prompts.merge, mode] at h
    | override => exact .inr ⟨kind, rfl, by simpa [Prompts.merge, mode] using h⟩
  · exact .inl (Document.exists_of_mem_setPath h)

theorem exists_of_mem_assignAll {draft : Draft} {assignments : List Assignment} {w : Warning}
    (h : w ∈ (draft.assignAll assignments).2) :
    ∃ a ∈ assignments, (∃ segment, w = .replacedIntermediate a.field segment) ∨
      a.kind = .prompts ∧ a.mode = .override ∧ w ∈ (Prompts.replacement a.axis a.value).2 := by
  induction assignments generalizing draft with
  | nil => exact absurd h List.not_mem_nil
  | cons a rest ih =>
    change w ∈ (draft.assign a).2 ++ ((draft.assign a).1.assignAll rest).2 at h
    rcases List.mem_append.1 h with h | h
    · exact ⟨a, List.mem_cons_self, mem_assign h⟩
    · obtain ⟨b, hb, source⟩ := ih h
      exact ⟨b, List.mem_cons_of_mem a hb, source⟩

end Draft

namespace SweepRequest

variable {request : SweepRequest} {options : SweepOptions} {now : Instant} {report : SweepReport}

theorem effectiveBase_warnings (request : SweepRequest) (catalog : Catalog) :
    (request.effectiveBase catalog).2 = (Document.merge request.base request.common).2 := by
  unfold effectiveBase
  dsimp only
  split <;> rfl

theorem exists_of_mem_firstWarnings {catalog : Catalog} {w : Warning}
    (h : w ∈ request.firstWarnings catalog (request.sweepAxes catalog)) :
    (∃ axis ∈ request.activeAxes, w ∈ (axis.resolve catalog).warnings) ∨
      ∃ path segment, w = .replacedIntermediate path segment := by
  unfold firstWarnings at h
  rw [Warning.mem_addNew, Warning.mem_addNew, toList_sweepAxes] at h
  rcases h with (h | h) | h
  · exact absurd h List.not_mem_nil
  · obtain ⟨resolved, hr, h⟩ := List.mem_flatMap.1 h
    obtain ⟨axis, ha, rfl⟩ := List.mem_map.1 hr
    exact .inl ⟨axis, ha, h⟩
  · rw [effectiveBase_warnings] at h
    exact .inr (Document.exists_of_mem_merge _ _ h)

theorem not_quotesFilename_of_mem_firstWarnings {catalog : Catalog} {w : Warning}
    (h : w ∈ request.firstWarnings catalog (request.sweepAxes catalog)) :
    w.quotesFilename = false := by
  rcases exists_of_mem_firstWarnings h with ⟨axis, -, h⟩ | ⟨path, segment, rfl⟩
  · rcases Axis.exists_of_mem_warnings h with ⟨r, rfl⟩ | ⟨choice, rfl⟩ <;> rfl
  · rfl

theorem not_quotesFilename_of_mem_variant {axes : SweepAxes} {c : Combination} {w : Warning}
    (h : w ∈ (request.variantOf options now axes c).warnings) : w.quotesFilename = false := by
  change w ∈ ((Draft.mk _ _).assignAll (c.assignments request axes)).2 at h
  obtain ⟨a, -, ⟨segment, rfl⟩ | ⟨-, -, h⟩⟩ := Draft.exists_of_mem_assignAll h
  · rfl
  · rw [Draft.exists_of_mem_replacement h]
    rfl

end SweepRequest

end SettingsSweep

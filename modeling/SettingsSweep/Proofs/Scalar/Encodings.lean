import SettingsSweep.Proofs.Axis.Resolution
import SettingsSweep.Proofs.Sweep.Coercion
import SettingsSweep.Proofs.Sweep.KeyframeText

/-!
The two forms in which a scalar is kept, a JSON value and a plain text. The JSON value reads back as the scalar just if
the scalar is finite, and the plain text of whatever a token was read as reads back as that.
-/

set_option autoImplicit false

namespace SettingsSweep

open Binary64

theorem toLower_of_isDigit {c : Char} (h : c.isDigit = true) : c.toLower = c := by
  simp only [Char.isDigit, Bool.and_eq_true, decide_eq_true_eq, UInt32.le_iff_toNat_le] at h
  simp at h
  refine dif_neg fun upper => ?_
  simp [UInt32.le_iff_toNat_le] at upper
  omega

theorem Binary64.IsSpelling.map_toLower {text : List Char} {d : Decimal} (h : IsSpelling text d) :
    text.map Char.toLower = text := by
  obtain ⟨negative, whole, fraction, rfl, plain⟩ := h.plain
  have digits {cs : List Char} (all : cs.all Char.isDigit = true) : cs.map Char.toLower = cs := by
    induction cs with
    | nil => rfl
    | cons c cs ih =>
      simp only [List.all_cons, Bool.and_eq_true] at all
      rw [List.map_cons, toLower_of_isDigit all.1, ih all.2]
  have point : (pointed whole fraction).map Char.toLower = pointed whole fraction := by
    unfold pointed
    split
    · exact digits plain.all_whole
    · rw [List.map_append, List.map_cons, digits plain.all_whole, digits plain.all_fraction]
      rfl
  cases negative
  · exact point
  · rw [signed, if_pos rfl, List.map_cons, point]
    rfl

namespace Scalar

theorem classify_trim (token : String) : classify (Text.trim token) = classify token := by
  unfold classify
  rw [Schedule.trim_trim]

theorem classify_cases (token : String) : (∃ b, classify token = .bool b) ∨ (∃ x, classify token = .number x) ∨
    classify token = .text (Text.trim token) := by
  unfold classify
  dsimp only
  split
  · exact .inl ⟨true, rfl⟩
  · split
    · exact .inl ⟨false, rfl⟩
    · split
      · next x read => exact .inr (.inl ⟨x, rfl⟩)
      · exact .inr (.inr rfl)

theorem classify_of_isSpelling {token : String} {d : Decimal} (h : IsSpelling token.toList d)
    (finite : d.toBinary64.isFinite = true) : classify token = .number d.toBinary64 := by
  have read := finite?_of_isSpelling h finite
  have trimmed : Text.trim token = token := by rw [Text.trim, h.trimChars, String.ofList_toList]
  have lowered : Text.lower token = token := by rw [Text.lower, h.map_toLower, String.ofList_toList]
  have no_word {word : String} (none : finite? word = none) : token ≠ word := by
    rintro rfl
    rw [read] at none
    cases none
  unfold classify
  dsimp only
  rw [trimmed, lowered, if_neg (no_word (by decide)), if_neg (no_word (by decide)), read]

/-- The plain text of a number reads as the number, or as the zero without a sign. -/
theorem same_classify_display {x : Binary64} (finite : x.isFinite = true) :
    (classify (number x).display).same (number x) = true := by
  obtain ⟨d, spelling, read | ⟨zero, zero'⟩⟩ := exists_spelling finite
  · rw [classify_of_isSpelling spelling (read ▸ finite), read]
    exact (same_iff finite finite).2 rfl
  · have finite' : d.toBinary64.isFinite = true := by
      revert zero
      cases d.toBinary64 <;> simp [isZero, Binary64.isFinite]
    rw [classify_of_isSpelling spelling finite']
    exact same_of_isZero zero zero'

theorem same_classify_display_classify (token : String) :
    (classify (classify token).display).same (classify token) = true := by
  have finite := isFinite_classify token
  rcases classify_cases token with ⟨b, read⟩ | ⟨x, read⟩ | read
  · rw [read]
    cases b <;> decide
  · rw [read] at finite ⊢
    exact same_classify_display finite
  · -- A text stays on its side, since its ends are trimmed once and for all.
    rw [read, display, classify_trim, read]
    exact beq_self_eq_true (Text.trim token)

theorem exists_ofJson?_toJson_iff (v : Scalar) :
    (∃ w, ofJson? v.toJson = some w ∧ w.same v = true) ↔ v.isFinite = true := by
  cases v with
  | bool b => exact ⟨fun _ => rfl, fun _ => ⟨.bool b, rfl, beq_self_eq_true b⟩⟩
  | text s => exact ⟨fun _ => rfl, fun _ => ⟨.text s, rfl, beq_self_eq_true s⟩⟩
  | number x =>
    rw [isFinite, ← exists_read_back_iff]
    constructor
    · rintro ⟨w, read, same⟩
      cases w with
      | number y => exact ⟨y, read, same⟩
      | bool b => cases same
      | text s => cases same
    · rintro ⟨y, read, same⟩
      exact ⟨.number y, read, same⟩

/-- Texts, booleans and finite numbers, and no other scalars, read back from the JSON values that stand for them. What a
    token is read as reads back from its plain text. -/
theorem encodings_read_back :
    (∀ v : Scalar, (∃ w, ofJson? v.toJson = some w ∧ w.same v = true) ↔ v.isFinite = true) ∧
    ∀ token, (classify (classify token).display).same (classify token) = true :=
  ⟨exists_ofJson?_toJson_iff, same_classify_display_classify⟩

/-- Infinity is a text on both readings, and a zero loses its sign on the second. -/
example : classify "-Infinity" = .text "-Infinity" ∧ classify "1e400" = .text "1e400" ∧ (classify "-0").display = "0" := by
  decide +kernel

end Scalar

end SettingsSweep

import SettingsSweep.Proofs.Axis.FiniteValues
import SettingsSweep.Proofs.Number.PlainText
import SettingsSweep.Sweep.CommonSettings

/-!
Texts that are taken for numbers. Such a text is the spelling of the number, and so the text can be told from the value;
any other spelling stays a text.
-/

set_option autoImplicit false

namespace SettingsSweep

open Binary64

theorem Json.ofNumber_congr {x y : Binary64} (h : x = y ∨ x.isZero = true ∧ y.isZero = true) :
    ofNumber x = ofNumber y := by
  rcases h with rfl | ⟨hx, hy⟩
  · rfl
  · rw [ofNumber_of_isZero hx, ofNumber_of_isZero hy]

namespace Scalar

theorem display_congr {x y : Binary64} (h : x = y ∨ x.isZero = true ∧ y.isZero = true) :
    (number x).display = (number y).display := by
  rcases h with rfl | ⟨hx, hy⟩
  · rfl
  · rw [display, display, if_pos hx, if_pos hy]

theorem exists_spelling {x : Binary64} (finite : x.isFinite = true) : ∃ d, IsSpelling (number x).display.toList d ∧
    (d.toBinary64 = x ∨ d.toBinary64.isZero = true ∧ x.isZero = true) := by
  obtain ⟨s, m, e, canonical, rfl⟩ := exists_eq_finite finite
  by_cases none : m = 0
  · subst none
    have shown : (number (.finite s 0 e canonical)).display.toList = ['0'] := by
      simp [display, isZero]
    exact ⟨⟨false, 0, 0⟩, shown ▸ isSpelling_zero, .inr ⟨rfl, rfl⟩⟩
  · obtain ⟨d, spelling, read⟩ := isSpelling_toPlain s canonical none
    refine ⟨d, ?_, .inl read⟩
    rw [display, if_neg (by simpa [isZero] using none), String.toList_ofList]
    exact spelling

theorem finite?_of_isSpelling {token : String} {d : Decimal} (h : IsSpelling token.toList d)
    (finite : d.toBinary64.isFinite = true) : finite? token = some d.toBinary64 := by
  rw [finite?, h.trimChars, h.ofText?, Option.filter_some, if_pos finite]

end Scalar

theorem coerce_cases (raw : String) : coerce raw = .str raw ∨
    ∃ x, x.isFinite = true ∧ (Scalar.number x).display = raw ∧ coerce raw = .ofNumber x := by
  unfold coerce
  cases read : Scalar.finite? raw with
  | none => exact .inl rfl
  | some x =>
    dsimp only
    split
    · next shown => exact .inr ⟨x, (Option.filter_eq_some_iff.1 read).2, shown, rfl⟩
    · exact .inl rfl

theorem coerce_display {x : Binary64} (finite : x.isFinite = true) :
    coerce (Scalar.number x).display = .ofNumber x := by
  obtain ⟨d, spelling, same⟩ := Scalar.exists_spelling finite
  have finite' : d.toBinary64.isFinite = true := by
    rcases same with same | ⟨zero, -⟩
    · rw [same]
      exact finite
    · revert zero
      cases d.toBinary64 <;> simp [isZero, isFinite]
  unfold coerce
  rw [Scalar.finite?_of_isSpelling spelling finite']
  dsimp only
  rw [if_pos (Scalar.display_congr same), Json.ofNumber_congr same]

theorem exists_display_coerce (raw : String) : ∃ v, Scalar.ofJson? (coerce raw) = some v ∧ v.display = raw := by
  rcases coerce_cases raw with text | ⟨x, finite, shown, number⟩
  · exact ⟨.text raw, by rw [text]; rfl, rfl⟩
  · obtain ⟨y, read, same⟩ := (Scalar.exists_read_back_iff x).2 finite
    refine ⟨.number y, by rw [number]; exact read, ?_⟩
    rw [Scalar.display_congr (eq_or_isZero_of_same same), shown]

theorem coerce_injective : Function.Injective coerce := by
  intro raw other same
  obtain ⟨v, read, shown⟩ := exists_display_coerce raw
  obtain ⟨w, read', shown'⟩ := exists_display_coerce other
  rw [same, read'] at read
  rw [← shown, ← shown', Option.some.inj read]

theorem coerce_eq_text_iff {raw : String} :
    coerce raw = .str raw ↔ ∀ x : Binary64, x.isFinite = true → (Scalar.number x).display ≠ raw := by
  constructor
  · rintro text x finite rfl
    rw [coerce_display finite] at text
    exact Json.ofNumber_ne_str x _ text
  · intro never
    rcases coerce_cases raw with text | ⟨x, finite, shown, -⟩
    · exact text
    · exact absurd shown (never x finite)

theorem exists_spelling_of_coerce {raw : String} (number : coerce raw ≠ .str raw) :
    ∃ d, IsSpelling raw.toList d ∧ coerce raw = .ofNumber d.toBinary64 := by
  rcases coerce_cases raw with text | ⟨x, finite, rfl, number⟩
  · exact absurd text number
  · obtain ⟨d, spelling, same⟩ := Scalar.exists_spelling finite
    exact ⟨d, spelling, number.trans (Json.ofNumber_congr same).symm⟩

/-- Whatever a text is taken for, it can be told from that. It is taken for a number just if it is the text of a finite one,
    and then it is a plain numeral without a digit too many; every other text stays a text. -/
theorem coerce_loses_nothing :
    (∀ raw, ∃ v, Scalar.ofJson? (coerce raw) = some v ∧ v.display = raw) ∧
    Function.Injective coerce ∧
    (∀ raw, coerce raw = .str raw ↔ ∀ x : Binary64, x.isFinite = true → (Scalar.number x).display ≠ raw) ∧
    (∀ x : Binary64, x.isFinite = true → coerce (Scalar.number x).display = .ofNumber x) ∧
    ∀ raw, coerce raw = .str raw ∨ ∃ d, IsSpelling raw.toList d ∧ coerce raw = .ofNumber d.toBinary64 :=
  ⟨exists_display_coerce, coerce_injective, fun _ => coerce_eq_text_iff, fun _ => coerce_display, fun _ =>
    or_iff_not_imp_left.2 exists_spelling_of_coerce⟩

theorem coerce_loses_nothing_apart :
    (∃ v, Scalar.ofJson? (coerce "1e3") = some v ∧ v.display = "1e3") ∧ coerce "007" = .str "007" ∧
      coerce "-0" = .str "-0" ∧ (ofNat (2 ^ 53)).isFinite = true ∧
      coerce "9007199254740992" = .ofNumber (ofNat (2 ^ 53)) ∧ coerce "9007199254740993" = .str "9007199254740993" := by
  obtain ⟨shown, injective, -, numbers, spelt⟩ := coerce_loses_nothing
  have finite : (ofNat (2 ^ 53)).isFinite = true := by decide +kernel
  have text : (Scalar.number (ofNat (2 ^ 53))).display = "9007199254740992" := by decide +kernel
  have whole := text ▸ numbers _ finite
  refine ⟨shown _, (spelt _).resolve_right ?_, (spelt _).resolve_right ?_, finite, whole, (spelt _).resolve_right ?_⟩
  · rintro ⟨d, ⟨⟨negative, whole, fraction, text, plain⟩, -⟩, -⟩
    cases negative with
    | true => cases text
    | false =>
      obtain ⟨rfl, rfl⟩ := eq_of_pointed_eq text.symm (by decide)
      cases plain.lead rfl
  · rintro ⟨d, ⟨⟨negative, whole, fraction, text, plain⟩, -⟩, -⟩
    cases negative with
    | true =>
      obtain ⟨rfl, rfl⟩ := eq_of_pointed_eq (List.cons.inj text).2.symm (by decide)
      obtain ⟨c, hc, some⟩ := plain.minus rfl
      exact some (List.mem_singleton.1 hc)
    | false =>
      obtain ⟨rfl, rfl⟩ := eq_of_pointed_eq text.symm (by decide)
      exact absurd (plain.digits '-' (by simp)) (by decide)
  · -- The next text reads as the same number, which has one spelling only.
    rintro ⟨d, spelling, number⟩
    have read : Decimal.ofText? "9007199254740993".toList = some ⟨false, 9007199254740993, 0⟩ := by decide
    obtain rfl := Option.some.inj (spelling.read.symm.trans read)
    have same : Decimal.toBinary64 ⟨false, 9007199254740993, 0⟩ = ofNat (2 ^ 53) := by decide +kernel
    rw [same, ← whole] at number
    exact absurd (injective number) (by decide)

end SettingsSweep

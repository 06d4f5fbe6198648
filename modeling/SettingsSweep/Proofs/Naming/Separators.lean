import SettingsSweep.Config.Basic
import SettingsSweep.Naming.FileName
import SettingsSweep.Proofs.Naming.Template

/-!
Where the characters of a file name come from. Times, sanitized texts and numbers have no path separator, so
a filled template has none that the template does not have.
-/

set_option autoImplicit false

namespace SettingsSweep

def isSeparator (c : Char) : Bool := c == '/' || c == '\\'

theorem hasSeparator_eq_false_iff {text : String} :
    hasSeparator text = false ↔ ∀ c ∈ text.toList, isSeparator c = false := by
  change text.toList.any isSeparator = false ↔ _
  rw [List.any_eq_false]
  simp only [Bool.not_eq_true]

theorem hasSeparator_ofList {chars : List Char} :
    hasSeparator (String.ofList chars) = false ↔ ∀ c ∈ chars, isSeparator c = false := by
  rw [hasSeparator_eq_false_iff, String.toList_ofList]

theorem hasSeparator_append (s t : String) :
    hasSeparator (s ++ t) = (hasSeparator s || hasSeparator t) := by
  unfold hasSeparator
  rw [String.toList_append, List.any_append]

theorem isSeparator_of_isAlphanum {c : Char} (h : c.isAlphanum = true) : isSeparator c = false := by
  refine Bool.eq_false_iff.2 fun hs => ?_
  rcases (by simpa [isSeparator] using hs : c = '/' ∨ c = '\\') with rfl | rfl <;> cases h

theorem isSeparator_of_mem_toDigits {n : Nat} {c : Char} (h : c ∈ Nat.toDigits 10 n) :
    isSeparator c = false := by
  have digit := Nat.isDigit_of_mem_toDigits (by decide) (by decide) h
  exact isSeparator_of_isAlphanum (by simp [Char.isAlphanum, digit])

theorem hasSeparator_toString (n : Nat) : hasSeparator (toString n) = false := by
  rw [Nat.toString_eq_ofList_toDigits, hasSeparator_ofList]
  exact fun c hc => isSeparator_of_mem_toDigits hc

namespace Instant

theorem hasSeparator_padded (width n : Nat) : hasSeparator (padded width n) = false := by
  rw [padded, hasSeparator_ofList]
  intro c hc
  rcases List.mem_append.1 hc with hc | hc
  · rw [(List.mem_replicate.1 hc).2]
    decide
  · exact isSeparator_of_mem_toDigits hc

theorem hasSeparator_yearText (year : Int) : hasSeparator (yearText year) = false := by
  unfold yearText
  split
  · exact hasSeparator_padded _ _
  · rw [hasSeparator_append, hasSeparator_padded, Bool.or_false]
    split <;> decide

theorem hasSeparator_stamp (t : Instant) : hasSeparator t.stamp = false := by
  have bar : hasSeparator "_" = false := by decide
  simp only [stamp, two, hasSeparator_append, hasSeparator_yearText, hasSeparator_padded, bar,
    Bool.or_false]

end Instant

namespace FileName

theorem safe_of_mem_sanitize {text : String} {c : Char} (h : c ∈ (sanitize text).toList) :
    c.isAlphanum = true ∨ c = '_' ∨ c = '.' ∨ c = '-' := by
  rw [sanitize, String.toList_ofList] at h
  obtain ⟨d, -, kept⟩ := List.mem_filterMap.1 h
  unfold sanitizeChar at kept
  split at kept
  · exact .inr (.inl (Option.some.inj kept).symm)
  · split at kept
    · next safe =>
      obtain rfl := Option.some.inj kept
      simpa only [Bool.or_eq_true, beq_iff_eq, or_assoc] using safe
    · cases kept

theorem hasSeparator_sanitize (text : String) : hasSeparator (sanitize text) = false := by
  rw [hasSeparator_eq_false_iff]
  intro c hc
  rcases safe_of_mem_sanitize hc with alphanum | rfl | rfl | rfl
  · exact isSeparator_of_isAlphanum alphanum
  all_goals decide

theorem nul_notMem_sanitize (text : String) : '\x00' ∉ (sanitize text).toList := by
  intro h
  rcases safe_of_mem_sanitize h with alphanum | no | no | no
  · cases alphanum
  all_goals cases no

theorem hasSeparator_sanitizeSetting (value : Option Json) :
    hasSeparator (sanitizeSetting value) = false := by
  unfold sanitizeSetting
  split
  · decide
  · decide
  · exact hasSeparator_sanitize _
  · exact hasSeparator_sanitize _

/-- No variable of a combination brings a separator into a name. -/
theorem hasSeparator_variableText (now : Instant) (values : AxisName → Option AxisValue)
    (settings : Document) (options : NamingOptions) (v : Variable) :
    hasSeparator (variableText (combinationContext now values) settings options v) = false := by
  cases v with
  | timestring => exact now.hasSeparator_stamp
  | filename => exact hasSeparator_sanitize _
  | param axis =>
    simp only [variableText, combinationContext]
    split
    · exact hasSeparator_sanitize _
    · decide
  | value axis =>
    simp only [variableText, combinationContext]
    split
    · exact hasSeparator_sanitize _
    · decide
  | _ => exact hasSeparator_sanitizeSetting _

end FileName

namespace Template

theorem hasSeparator_fill {template : String} (clean : hasSeparator template = false)
    {values : Variable → String} (texts : ∀ v, hasSeparator (values v) = false) :
    hasSeparator (fill template values) = false := by
  rw [fill_eq, hasSeparator_ofList]
  intro c hc
  obtain ⟨p, hp, hc⟩ := List.mem_flatMap.1 hc
  cases hv : p.slot? with
  | some v =>
    rw [Piece.fill_of_some hv] at hc
    exact hasSeparator_eq_false_iff.1 (texts v) c hc
  | none =>
    rw [Piece.fill_of_none hv] at hc
    exact hasSeparator_eq_false_iff.1 clean c (mem_toList_of_mem_source hp hc)

theorem hasSeparator_suggest (x y z : Bool) : hasSeparator (suggest x y z) = false := by
  have part (active : Bool) (letter : String) (clean : hasSeparator letter = false) :
      hasSeparator (if active then "_\x7b" ++ letter ++ "_param\x7d-\x7b" ++ letter ++ "_value\x7d"
        else "") = false := by
    cases active with
    | false => rfl
    | true =>
      simp only [if_true, hasSeparator_append, clean]
      decide
  unfold suggest
  dsimp only
  simp only [hasSeparator_append, part _ _ (by decide : hasSeparator "x" = false),
    part _ _ (by decide : hasSeparator "y" = false),
    part _ _ (by decide : hasSeparator "z" = false)]
  decide

end Template

end SettingsSweep

import SettingsSweep.Proofs.Axis.NumeralGrammar
import SettingsSweep.Sweep.CommonSettings

/-!
Values of schedules as keyframes. What starts a keyframe is told by its form; a value that is wrapped is a keyframe, and
wrapping it again leaves it as it is.
-/

set_option autoImplicit false

namespace SettingsSweep.Schedule

/-- A frame number, a colon and an opening bracket, with blanks before each of them. -/
def KeyframeForm (text : String) : Prop :=
  ∃ lead sign frame gap gap' rest : List Char,
    text.toList = lead ++ (sign ++ (frame ++ (gap ++ ':' :: (gap' ++ '(' :: rest)))) ∧
      lead.all Text.isBlank = true ∧ (sign = [] ∨ sign = ['-']) ∧
      frame ≠ [] ∧ (∀ c ∈ frame, Text.isDigit c = true) ∧
      gap.all Text.isBlank = true ∧ gap'.all Text.isBlank = true

theorem isDigit_minus : Text.isDigit '-' = false := by decide

theorem isKeyframe_of_form {text : String} (h : KeyframeForm text) : isKeyframe text = true := by
  obtain ⟨lead, sign, frame, gap, gap', rest, parts, hl, hs, ne, digits, hg, hg'⟩ := h
  have solid : ∀ c ∈ frame, Text.isBlank c = false := fun c hc => Text.isBlank_of_isDigit_script (digits c hc)
  have opening : Text.skipBlank ('(' :: rest) = '(' :: rest := List.dropWhile_cons_of_neg (by decide)
  have colon : Text.skipBlank (':' :: (gap' ++ '(' :: rest)) = ':' :: (gap' ++ '(' :: rest) :=
    List.dropWhile_cons_of_neg (by decide)
  have stop : ∀ c ∈ (gap ++ ':' :: (gap' ++ '(' :: rest)).head?, Text.isDigit c = false := by
    intro c hc
    cases gap with
    | nil =>
      obtain rfl : ':' = c := Option.some.inj hc
      decide
    | cons b gap =>
      obtain rfl : b = c := Option.some.inj hc
      refine Bool.eq_false_iff.2 fun digit => ?_
      have blank := List.all_eq_true.1 hg b List.mem_cons_self
      rw [Text.isBlank_of_isDigit_script digit] at blank
      cases blank
  obtain ⟨taken, left⟩ := Text.span_append digits stop
  have number : (frame ++ (gap ++ ':' :: (gap' ++ '(' :: rest))).takeWhile Text.isDigit ≠ [] := by rwa [taken]
  unfold isKeyframe
  dsimp only
  rw [parts, Text.skipBlank_append hl]
  rcases hs with rfl | rfl
  · rw [List.nil_append, Text.skipBlank_of_not_blank ne solid]
    have plain : ∀ tail, frame ++ (gap ++ ':' :: (gap' ++ '(' :: rest)) ≠ '-' :: tail := by
      intro tail same
      obtain ⟨c, cs, rfl⟩ := List.exists_cons_of_ne_nil ne
      obtain rfl := (List.cons.inj same).1
      have digit := digits _ List.mem_cons_self
      rw [isDigit_minus] at digit
      cases digit
    split
    · next tail same => exact absurd same (plain tail)
    · simp only [if_neg number, left, Text.skipBlank_append hg, colon, Text.skipBlank_append hg', opening]
      rfl
  · have sign : Text.skipBlank (['-'] ++ (frame ++ (gap ++ ':' :: (gap' ++ '(' :: rest)))) =
        '-' :: (frame ++ (gap ++ ':' :: (gap' ++ '(' :: rest))) := List.dropWhile_cons_of_neg (by decide)
    simp only [sign, if_neg number, left, Text.skipBlank_append hg, colon, Text.skipBlank_append hg', opening]
    rfl

theorem KeyframeForm.of_parts {text : String} {sign body rest : List Char} (hs : sign = [] ∨ sign = ['-'])
    (signed : Text.skipBlank text.toList = sign ++ body) (number : body.takeWhile Text.isDigit ≠ [])
    (colon : Text.skipBlank (body.dropWhile Text.isDigit) = ':' :: rest)
    (opening : (Text.skipBlank rest).head? = some '(') : KeyframeForm text := by
  obtain ⟨lead, hl, start⟩ := Text.exists_blank_append text.toList
  obtain ⟨gap, hg, after⟩ := Text.exists_blank_append (body.dropWhile Text.isDigit)
  obtain ⟨gap', hg', behind⟩ := Text.exists_blank_append rest
  obtain ⟨tail, opening⟩ := List.head?_eq_some_iff.1 opening
  refine ⟨lead, sign, body.takeWhile Text.isDigit, gap, gap', tail, ?_, hl, hs, number,
    fun c hc => List.mem_takeWhile_imp hc, hg, hg'⟩
  rw [opening] at behind
  rw [colon, behind] at after
  rw [← after, List.takeWhile_append_dropWhile, ← signed]
  exact start

theorem form_of_isKeyframe {text : String} (h : isKeyframe text = true) : KeyframeForm text := by
  unfold isKeyframe at h
  dsimp only at h
  split at h
  · next body minus =>
    split at h
    · cases h
    · next number =>
      split at h
      · next rest colon => exact .of_parts (.inr rfl) minus number colon (of_decide_eq_true h)
      · cases h
  · split at h
    · cases h
    · next number =>
      split at h
      · next rest colon => exact .of_parts (.inl rfl) rfl number colon (of_decide_eq_true h)
      · cases h

theorem isKeyframe_iff {text : String} : isKeyframe text = true ↔ KeyframeForm text :=
  ⟨form_of_isKeyframe, isKeyframe_of_form⟩

/-- Whatever is wrapped reads as a keyframe, and is wrapped already. -/
theorem isKeyframe_wrap (raw : String) : isKeyframe (wrap raw) = true := by
  unfold wrap
  dsimp only
  split
  · next already => exact already
  · refine isKeyframe_of_form ⟨[], [], ['0'], [], [' '], (Text.trim raw).toList ++ [')'], ?_, rfl, .inl rfl,
      List.cons_ne_nil _ _, fun c hc => List.mem_singleton.1 hc ▸ (by decide : Text.isDigit '0' = true), rfl, by decide⟩
    simp

theorem trim_trim (text : String) : Text.trim (Text.trim text) = Text.trim text := by
  rw [Text.trim, Text.trim, String.toList_ofList, Text.trimChars_trimChars]

theorem wrap_of_isKeyframe {raw : String} (h : isKeyframe (Text.trim raw) = true) : wrap raw = Text.trim raw :=
  if_pos h

theorem trim_wrap (raw : String) : Text.trim (wrap raw) = wrap raw := by
  unfold wrap
  dsimp only
  split
  · exact trim_trim raw
  · have whole : ("0: (" ++ Text.trim raw ++ ")").toList = '0' :: (": (".toList ++ (Text.trim raw).toList) ++ [')'] := by
      simp
    have self : Text.trimChars ([] ++ ('0' :: (": (".toList ++ (Text.trim raw).toList) ++ [')'] ++ [])) =
        '0' :: (": (".toList ++ (Text.trim raw).toList) ++ [')'] := by
      refine Text.trimChars_append rfl rfl (fun c hc => ?_) (fun c hc => ?_) (List.cons_ne_nil _ _)
      · obtain rfl : '0' = c := Option.some.inj hc
        decide
      · rw [List.getLast?_concat] at hc
        obtain rfl : ')' = c := Option.some.inj hc
        decide
    rw [List.nil_append, List.append_nil, ← whole] at self
    rw [Text.trim, self, String.ofList_toList]

theorem wrap_wrap (raw : String) : wrap (wrap raw) = wrap raw := by
  have trimmed := trim_wrap raw
  rw [wrap_of_isKeyframe (by rw [trimmed]; exact isKeyframe_wrap raw), trimmed]

end SettingsSweep.Schedule

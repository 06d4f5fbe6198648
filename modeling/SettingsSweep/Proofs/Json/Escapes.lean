import SettingsSweep.Json.Token
import Mathlib.Data.List.Basic

/-!
Strings in a text with a line break. No string holds one: a break is a control character, no escape has one in
it, and a string that is still open there cannot be read.
-/

set_option autoImplicit false

namespace SettingsSweep.Json.Lexeme

def IsBreak (c : Char) : Prop := c = '\n' ∨ c = '\r'

namespace IsBreak

variable {b : Char}

theorem isSpace (hb : IsBreak b) : isSpace b = true := by
  rcases hb with rfl | rfl <;> rfl

theorem isDigit (hb : IsBreak b) : b.isDigit = false := by
  rcases hb with rfl | rfl <;> rfl

theorem hexValue? (hb : IsBreak b) : hexValue? b = none := by
  rcases hb with rfl | rfl <;> decide

theorem simpleEscape? (hb : IsBreak b) : simpleEscape? b = none := by
  rcases hb with rfl | rfl <;> rfl

theorem toNat_lt (hb : IsBreak b) : b.toNat < 0x20 := by
  rcases hb with rfl | rfl <;> decide

theorem ne_of_le (hb : IsBreak b) {c : Char} (hc : 0x20 ≤ c.toNat) : b ≠ c := by
  rintro rfl
  have := hb.toNat_lt
  omega

end IsBreak

theorem codeUnit?_eq_none {a b c d : Char}
    (h : hexValue? a = none ∨ hexValue? b = none ∨ hexValue? c = none ∨ hexValue? d = none) :
    codeUnit? a b c d = none := by
  unfold codeUnit?
  cases ha : hexValue? a <;> cases hb : hexValue? b <;> cases hc : hexValue? c <;>
    cases hd : hexValue? d <;> simp_all

theorem escape_u_of_short {rest : List Char} (h : rest.length < 4) :
    (escape ('u' :: rest)).toOption = none := by
  rcases rest with _ | ⟨a, _ | ⟨b, _ | ⟨c, _ | ⟨d, rest⟩⟩⟩⟩
  case cons.cons.cons.cons => simp at h; omega
  all_goals
    simp only [escape]
    split <;> rfl

theorem escape_u_of_not_hex {rest : List Char} {x : Char} (hx : x ∈ rest.take 4)
    (none : hexValue? x = none) : (escape ('u' :: rest)).toOption = .none := by
  by_cases short : rest.length < 4
  · exact escape_u_of_short short
  · rcases rest with _ | ⟨a, _ | ⟨b, _ | ⟨c, _ | ⟨d, rest⟩⟩⟩⟩
    case cons.cons.cons.cons =>
      have bad : codeUnit? a b c d = .none := by
        apply codeUnit?_eq_none
        simp at hx
        rcases hx with rfl | rfl | rfl | rfl <;> simp [none]
      simp [escape, bad, Except.toOption]
    all_goals exact absurd (by simp) short

/-- An escape is over before a break, or it is broken by it. -/
theorem escape_append {b : Char} (hb : IsBreak b) (cs more : List Char) :
    (escape (cs ++ b :: more)).toOption =
      (escape cs).toOption.map fun (unit, rest) => (unit, rest ++ b :: more) := by
  rcases cs with _ | ⟨c, cs⟩
  · have ne : b ≠ 'u' := hb.ne_of_le (by decide)
    simp [escape, hb.simpleEscape?, Except.toOption]
  · by_cases hu : c = 'u'
    · subst hu
      by_cases short : cs.length < 4
      · have inside : b ∈ (cs ++ b :: more).take 4 := by
          rw [List.take_append, List.mem_append]
          right
          have : 4 - cs.length = (3 - cs.length) + 1 := by omega
          rw [this]
          simp
        rw [List.cons_append, escape_u_of_short short, escape_u_of_not_hex inside hb.hexValue?]
        rfl
      · rcases cs with _ | ⟨a₁, _ | ⟨a₂, _ | ⟨a₃, _ | ⟨a₄, cs⟩⟩⟩⟩
        case cons.cons.cons.cons =>
          cases h : codeUnit? a₁ a₂ a₃ a₄ <;> simp [escape, h, Except.toOption]
        all_goals exact absurd (by simp) short
    · cases h : simpleEscape? c <;> simp [escape, h, Except.toOption]

theorem length_lt_of_escape {cs rest : List Char} {unit : Nat}
    (h : (escape cs).toOption = some (unit, rest)) : rest.length < cs.length := by
  rcases cs with _ | ⟨c, cs⟩
  · cases h
  · by_cases hu : c = 'u'
    · subst hu
      by_cases short : cs.length < 4
      · rw [escape_u_of_short short] at h
        cases h
      · rcases cs with _ | ⟨a₁, _ | ⟨a₂, _ | ⟨a₃, _ | ⟨a₄, cs⟩⟩⟩⟩
        case cons.cons.cons.cons =>
          cases hc : codeUnit? a₁ a₂ a₃ a₄ with
          | none => simp [escape, hc, Except.toOption] at h
          | some n =>
            simp [escape, hc, Except.toOption] at h
            rw [← h.2]
            simp
            omega
        all_goals exact absurd (by simp) short
    · cases hc : simpleEscape? c with
      | none => simp [escape, hc, Except.toOption] at h
      | some e =>
        simp [escape, hc, Except.toOption] at h
        rw [← h.2]
        simp

theorem toOption_bind {ε α β : Type} (x : Except ε α) (f : α → Except ε β) :
    (x >>= f).toOption = x.toOption.bind fun a => (f a).toOption := by
  cases x <;> rfl

def lowSurrogate? : List Char → Option (Nat × List Char)
  | '\\' :: 'u' :: digits =>
    (escape ('u' :: digits)).toOption.bind fun (low, rest) =>
      if isLowSurrogate low then some (low, rest) else none
  | _ => none

theorem lowSurrogate?_of_ne {cs : List Char} (h : ∀ digits, cs ≠ '\\' :: 'u' :: digits) :
    lowSurrogate? cs = none := by
  unfold lowSurrogate?
  split
  · next digits => exact absurd rfl (h digits)
  · rfl

def surrogatePair (high low : Nat) : Char :=
  Char.ofNat (0x10000 + (high - 0xD800) * 1024 + (low - 0xDC00))

/-- The character that the text after a backslash stands for, and the text after its spelling. -/
def escaped? (strict : Bool) (cs : List Char) : Option (Char × List Char) :=
  (escape cs).toOption.bind fun (unit, rest) =>
    if strict && isLowSurrogate unit then none
    else if strict && isHighSurrogate unit then
      (lowSurrogate? rest).map fun (low, rest) => (surrogatePair unit low, rest)
    else some (Char.ofNat unit, rest)

/-- The first character of what a string holds, and the text after its spelling. -/
def content? (strict : Bool) : List Char → Option (Char × List Char)
  | [] => none
  | c :: cs =>
    if c = '\\' then escaped? strict cs else if c.toNat < 0x20 then none else some (c, cs)

/-- A string ends with a quote, or it goes on after one more character. -/
theorem toOption_stringBody (strict : Bool) (fuel : Nat) (c : Char) (cs : List Char) :
    (stringBody strict (fuel + 1) (c :: cs)).toOption =
      if c = '"' then some ([], cs)
      else (content? strict (c :: cs)).bind fun (d, rest) =>
        (stringBody strict fuel rest).toOption.map fun (more, after) => (d :: more, after) := by
  have goOn : ∀ (d : Char) (rest : List Char),
      (do let (more, after) ← stringBody strict fuel rest
          Except.ok (d :: more, after) : Except Fault (List Char × List Char)).toOption =
        (stringBody strict fuel rest).toOption.map fun (more, after) => (d :: more, after) := by
    intro d rest
    cases stringBody strict fuel rest <;> rfl
  rw [stringBody, content?]
  by_cases quote : c = '"'
  · rw [if_pos quote, if_pos quote]
    rfl
  rw [if_neg quote, if_neg quote]
  -- After a backslash both sides read the escape first, and then a pair goes on with a second escape.
  by_cases slash : c = '\\'
  · rw [if_pos slash, if_pos slash, escaped?, toOption_bind, Option.bind_assoc]
    congr 1
    funext ⟨unit, rest⟩
    dsimp only
    split
    · rfl
    · split
      · split
        · rfl
        · rfl
        · next digits =>
          rw [List.tail_cons, toOption_bind, lowSurrogate?, Option.map_bind, Option.bind_assoc]
          congr 1
          funext ⟨low, rest⟩
          dsimp only [Function.comp]
          split
          · rw [Option.map_some, Option.bind_some]
            dsimp only
            rw [surrogatePair]
            generalize Char.ofNat _ = d
            exact goOn d rest
          · rfl
        · next notU =>
          rw [lowSurrogate?_of_ne]
          · rfl
          · rintro digits e
            exact notU (List.cons.inj (List.cons.inj e).2).1
        · next notU notSlash =>
          rw [lowSurrogate?_of_ne]
          · rfl
          · rintro digits e
            exact notSlash _ _ (List.cons.inj e).1 (List.cons.inj e).2
      · exact goOn _ _
  · rw [if_neg slash, if_neg slash]
    split
    · rfl
    · exact goOn c cs

-- The numerals in a pair must not be computed with from here on.
attribute [local irreducible] surrogatePair

theorem lowSurrogate?_append {b : Char} (hb : IsBreak b) (cs more : List Char) :
    lowSurrogate? (cs ++ b :: more) =
      (lowSurrogate? cs).map fun (low, rest) => (low, rest ++ b :: more) := by
  have slash : b ≠ '\\' := hb.ne_of_le (by decide)
  have u : b ≠ 'u' := hb.ne_of_le (by decide)
  rcases cs with _ | ⟨c, _ | ⟨d, digits⟩⟩
  · simp [lowSurrogate?, slash]
  · simp [lowSurrogate?, u]
  · by_cases pair : c = '\\' ∧ d = 'u'
    · obtain ⟨rfl, rfl⟩ := pair
      have shifted := escape_append hb ('u' :: digits) more
      simp only [lowSurrogate?, List.cons_append] at shifted ⊢
      rw [shifted, Option.bind_map, Option.map_bind]
      congr 1
      funext ⟨low, rest⟩
      dsimp only [Function.comp]
      split <;> rfl
    · have none (rest : List Char) : lowSurrogate? (c :: d :: rest) = none := by
        apply lowSurrogate?_of_ne
        intro digits e
        obtain ⟨hc, e⟩ := List.cons.inj e
        exact pair ⟨hc, (List.cons.inj e).1⟩
      rw [List.cons_append, List.cons_append, none, none]
      rfl

theorem length_lt_of_lowSurrogate? {cs rest : List Char} {low : Nat}
    (h : lowSurrogate? cs = some (low, rest)) : rest.length < cs.length := by
  unfold lowSurrogate? at h
  split at h
  · obtain ⟨⟨unit, after⟩, he, h⟩ := Option.bind_eq_some_iff.1 h
    dsimp only at h
    split at h
    · obtain ⟨-, rfl⟩ := Prod.mk.inj (Option.some.inj h)
      exact Nat.lt_succ_of_lt (length_lt_of_escape he)
    · cases h
  · cases h

theorem escaped?_append {b : Char} (hb : IsBreak b) (strict : Bool) (cs more : List Char) :
    escaped? strict (cs ++ b :: more) =
      (escaped? strict cs).map fun (d, rest) => (d, rest ++ b :: more) := by
  unfold escaped?
  rw [escape_append hb, Option.bind_map, Option.map_bind]
  congr 1
  funext ⟨unit, rest⟩
  simp only [Function.comp]
  split
  · rfl
  · split
    · rw [lowSurrogate?_append hb, Option.map_map, Option.map_map]
      rfl
    · rfl

theorem length_lt_of_escaped? {strict : Bool} {cs rest : List Char} {d : Char}
    (h : escaped? strict cs = some (d, rest)) : rest.length < cs.length := by
  unfold escaped? at h
  obtain ⟨⟨unit, after⟩, he, h⟩ := Option.bind_eq_some_iff.1 h
  have first := length_lt_of_escape he
  dsimp only at h
  split at h
  · cases h
  · split at h
    · obtain ⟨⟨low, last⟩, hl, e⟩ := Option.map_eq_some_iff.1 h
      obtain ⟨-, rfl⟩ := Prod.mk.inj e
      exact Nat.lt_trans (length_lt_of_lowSurrogate? hl) first
    · obtain ⟨-, rfl⟩ := Prod.mk.inj (Option.some.inj h)
      exact first

theorem content?_append {b : Char} (hb : IsBreak b) (strict : Bool) (cs more : List Char) :
    content? strict (cs ++ b :: more) =
      (content? strict cs).map fun (d, rest) => (d, rest ++ b :: more) := by
  cases cs with
  | nil =>
    have slash : b ≠ '\\' := hb.ne_of_le (by decide)
    simp [content?, slash, hb.toNat_lt]
  | cons c cs =>
    simp only [content?, List.cons_append]
    split
    · exact escaped?_append hb strict cs more
    · split <;> rfl

theorem length_lt_of_content? {strict : Bool} {cs rest : List Char} {d : Char}
    (h : content? strict cs = some (d, rest)) : rest.length < cs.length := by
  cases cs with
  | nil => cases h
  | cons c cs =>
    simp only [content?] at h
    split at h
    · exact Nat.lt_succ_of_lt (length_lt_of_escaped? h)
    · split at h
      · cases h
      · cases h
        exact Nat.lt_succ_self _

theorem stringBody_nil (strict : Bool) (n : Nat) : (stringBody strict n []).toOption = none := by
  cases n <;> rfl

theorem stringBody_break {b : Char} (hb : IsBreak b) (strict : Bool) (m : Nat) (more : List Char) :
    (stringBody strict m (b :: more)).toOption = none := by
  have quote : b ≠ '"' := hb.ne_of_le (by decide)
  have slash : b ≠ '\\' := hb.ne_of_le (by decide)
  cases m with
  | zero => rfl
  | succ m =>
    rw [toOption_stringBody, if_neg quote, content?, if_neg slash, if_pos hb.toNat_lt]
    rfl

theorem stringBody_append {b : Char} (hb : IsBreak b) (strict : Bool) {m n : Nat}
    {cs more : List Char} (hn : cs.length ≤ n) (hm : (cs ++ b :: more).length ≤ m) :
    (stringBody strict m (cs ++ b :: more)).toOption =
      (stringBody strict n cs).toOption.map fun (s, rest) => (s, rest ++ b :: more) := by
  -- One text is longer than the other, and so are their fuels: each is only enough for its own text.
  induction n generalizing m cs with
  | zero =>
    obtain rfl := List.length_eq_zero_iff.1 (Nat.le_zero.1 hn)
    rw [List.nil_append, stringBody_break hb, stringBody_nil]
    rfl
  | succ n ih =>
    obtain ⟨m, rfl⟩ : ∃ k, m = k + 1 := ⟨m - 1, by simp at hm; omega⟩
    cases cs with
    | nil =>
      rw [List.nil_append, stringBody_break hb, stringBody_nil]
      rfl
    | cons c cs =>
      rw [List.cons_append, toOption_stringBody, toOption_stringBody]
      split
      · rfl
      · rw [← List.cons_append, content?_append hb, Option.bind_map, Option.map_bind]
        cases h : content? strict (c :: cs) with
        | none => rfl
        | some r =>
          obtain ⟨d, rest⟩ := r
          have shorter := length_lt_of_content? h
          simp only [List.cons_append, List.length_cons, List.length_append] at hn hm shorter
          have step : (stringBody strict m (rest ++ b :: more)).toOption =
              (stringBody strict n rest).toOption.map fun (s, after) => (s, after ++ b :: more) := by
            apply ih
            · omega
            · simp only [List.length_append, List.length_cons]
              omega
          simp only [Option.bind_some, Function.comp]
          rw [step, Option.map_map, Option.map_map]
          rfl

theorem length_le_of_stringBody {strict : Bool} {n : Nat} {cs rest : List Char} {s : List Char}
    (h : (stringBody strict n cs).toOption = some (s, rest)) : rest.length ≤ cs.length := by
  induction n generalizing cs s with
  | zero => cases h
  | succ n ih =>
    cases cs with
    | nil => cases h
    | cons c cs =>
      rw [toOption_stringBody] at h
      split at h
      · cases h
        simp
      · obtain ⟨⟨d, after⟩, hc, h⟩ := Option.bind_eq_some_iff.1 h
        obtain ⟨⟨more, last⟩, hs, e⟩ := Option.map_eq_some_iff.1 h
        cases e
        have := length_lt_of_content? hc
        have := ih hs
        omega

end SettingsSweep.Json.Lexeme

import SettingsSweep.Proofs.Json.Escapes
import SettingsSweep.Text.Blank

/-!
The tokens of a text with a line break. A break ends every token that can be read, so the tokens of the text are
those before the break and those after it (`tokens?_append`).
-/

set_option autoImplicit false

namespace SettingsSweep.Json

/-- Numbers, strings and words that cannot be read, and strays, are refused by every reader. -/
def Token.isReadable : Token → Bool
  | .refused .. | .broken .. | .stray => false
  | _ => true

def Token.startsObject : Token → Bool
  | .openObject | .plain (.obj _) => true
  | _ => false

namespace Lexeme

theorem takeWhile_append_break {p : Char → Bool} {b : Char} (hp : p b = false) (cs more : List Char) :
    (cs ++ b :: more).takeWhile p = cs.takeWhile p := by
  induction cs with
  | nil => simp [hp]
  | cons c cs ih => by_cases h : p c = true <;> simp [h, ih]

theorem dropWhile_append_break {p : Char → Bool} {b : Char} (hp : p b = false) (cs more : List Char) :
    (cs ++ b :: more).dropWhile p = cs.dropWhile p ++ b :: more := by
  induction cs with
  | nil => simp [hp]
  | cons c cs ih => by_cases h : p c = true <;> simp [h, ih]

/-- What is read, if it is a token that can be read. -/
def taken? (read : Token × List Char) : Option (Token × List Char) :=
  if read.1.isReadable then some read else none

theorem taken?_string (cs : List Char) :
    taken? (string cs) = (stringBody true cs.length cs).toOption.map fun (s, rest) =>
      (.text (String.ofList s), rest) := by
  unfold string
  cases stringBody true cs.length cs with
  | ok read => rfl
  | error fault =>
    dsimp only
    split <;> rfl

structure EndsNumber (b : Char) : Prop where
  isDigit : b.isDigit = false
  ne_point : b ≠ '.'
  ne_lower : b ≠ 'e'
  ne_upper : b ≠ 'E'
  ne_minus : b ≠ '-'
  ne_plus : b ≠ '+'

theorem IsBreak.endsNumber {b : Char} (hb : IsBreak b) : EndsNumber b := by
  rcases hb with rfl | rfl <;> constructor <;> decide

/-- A token that starts before a character is over before it. -/
def StopsAt (b : Char) (read : List Char → Token × List Char) : Prop :=
  ∀ cs more, taken? (read (cs ++ b :: more)) =
    (taken? (read cs)).map fun (t, rest) => (t, rest ++ b :: more)

section

variable {b : Char}

theorem string_stopsAt (hb : IsBreak b) : StopsAt b string := by
  intro cs more
  rw [taken?_string, taken?_string, stringBody_append hb true (Nat.le_refl _) (Nat.le_refl _),
    Option.map_map, Option.map_map]
  rfl

theorem word_stopsAt {expected : List Char} (hb : b ∉ expected) (value : Json) :
    StopsAt b (word expected value) := by
  intro cs more
  induction expected generalizing cs with
  | nil => cases cs <;> rfl
  | cons e es ih =>
    have ne : b ≠ e := fun h => hb (h ▸ List.mem_cons_self)
    cases cs with
    | nil =>
      simp only [List.nil_append, word, if_neg ne]
      rfl
    | cons c cs =>
      simp only [List.cons_append, word]
      split
      · exact ih (fun h => hb (List.mem_cons_of_mem _ h)) cs
      · rfl

theorem scaledToken_stopsAt (b : Char) (negative : Bool) (significand : Nat) (exp : Int) :
    StopsAt b (scaledToken negative significand exp) := by
  intro cs more
  unfold scaledToken
  split <;> rfl

theorem splitSign_append_break (hb : EndsNumber b) (cs more : List Char) :
    Decimal.splitSign (cs ++ b :: more) =
      ((Decimal.splitSign cs).1, (Decimal.splitSign cs).2 ++ b :: more) := by
  cases cs with
  | nil => simp [Decimal.splitSign, hb.ne_minus, hb.ne_plus]
  | cons c cs =>
    simp only [List.cons_append, Decimal.splitSign]
    split <;> simp_all

theorem exponent_stopsAt (hb : EndsNumber b) (negative : Bool) (significand : Nat) (exp : Int) :
    StopsAt b (exponent negative significand exp) := by
  intro cs more
  unfold exponent
  rw [splitSign_append_break hb]
  obtain ⟨down, digits⟩ := Decimal.splitSign cs
  cases digits with
  | nil => simp [hb.isDigit, taken?, Token.isReadable]
  | cons d ds =>
    dsimp only [List.cons_append]
    split
    · rfl
    · rw [← List.cons_append, takeWhile_append_break hb.isDigit, dropWhile_append_break hb.isDigit]
      split
      · split <;> rfl
      · exact scaledToken_stopsAt b _ _ _ _ more

theorem fraction_stopsAt (hb : EndsNumber b) (negative : Bool) (significand : Nat) (exp : Int) :
    StopsAt b (fraction negative significand exp) := by
  intro cs more
  unfold fraction
  cases cs with
  | nil => simp [hb.isDigit, taken?, Token.isReadable]
  | cons c cs =>
    dsimp only [List.cons_append]
    split
    · rfl
    · rw [← List.cons_append, takeWhile_append_break hb.isDigit, dropWhile_append_break hb.isDigit]
      generalize accumulate significand _ = read
      generalize exp - _ = scale
      generalize (c :: cs).dropWhile Char.isDigit = after
      cases after with
      | nil => simpa [hb.ne_lower, hb.ne_upper] using scaledToken_stopsAt b negative read.1 scale [] more
      | cons d ds =>
        by_cases hl : d = 'e'
        · subst hl
          exact exponent_stopsAt hb negative read.1 scale ds more
        by_cases hu : d = 'E'
        · subst hu
          exact exponent_stopsAt hb negative read.1 scale ds more
        simpa [hl, hu] using scaledToken_stopsAt b negative read.1 scale (d :: ds) more

theorem number_stopsAt (hb : EndsNumber b) (negative : Bool) : StopsAt b (number negative) := by
  intro cs more
  cases cs with
  | nil => simp [number, hb.isDigit, taken?, Token.isReadable]
  | cons c rest =>
    have next : (rest ++ b :: more).head?.map Char.isDigit = some true ↔
        rest.head?.map Char.isDigit = some true := by
      cases rest <;> simp [hb.isDigit]
    simp only [number, List.cons_append, next]
    split
    · rfl
    · split
      · rfl
      · rw [← List.cons_append, takeWhile_append_break hb.isDigit, dropWhile_append_break hb.isDigit]
        generalize accumulate 0 _ = read
        generalize (c :: rest).dropWhile Char.isDigit = after
        obtain ⟨significand, unread⟩ := read
        have whole : StopsAt b fun cs =>
            if unread = [] then (.plain (integer negative significand), cs)
            else scaledToken negative significand unread.length cs := by
          intro cs more
          dsimp only
          split
          · rfl
          · exact scaledToken_stopsAt b _ _ _ cs more
        cases after with
        | nil => simpa [hb.ne_point, hb.ne_lower, hb.ne_upper] using whole [] more
        | cons d ds =>
          by_cases hp : d = '.'
          · subst hp
            exact fraction_stopsAt hb negative significand _ ds more
          by_cases hl : d = 'e'
          · subst hl
            exact exponent_stopsAt hb negative significand _ ds more
          by_cases hu : d = 'E'
          · subst hu
            exact exponent_stopsAt hb negative significand _ ds more
          simpa [hp, hl, hu] using whole (d :: ds) more

end

/-- A token that is no start of an object, with a rest of a text of some length. -/
structure Bounded (n : Nat) (read : Token × List Char) : Prop where
  scalar : read.1.startsObject = false
  shorter : read.2.length ≤ n

section

variable {n : Nat} {cs rest : List Char}

theorem bounded_broken (quoted : Bool) (fault : Fault) : Bounded n (.broken quoted fault, []) :=
  ⟨rfl, Nat.zero_le n⟩

theorem bounded_word (expected : List Char) {value : Json} (hv : value.object? = none)
    (h : cs.length ≤ n) : Bounded n (word expected value cs) := by
  induction expected generalizing cs with
  | nil =>
    refine ⟨?_, h⟩
    cases value <;> first | rfl | cases hv
  | cons e es ih =>
    cases cs with
    | nil => exact bounded_broken _ _
    | cons c cs =>
      unfold word
      split
      · exact ih (Nat.le_of_succ_le h)
      · exact bounded_broken _ _

theorem bounded_string (h : cs.length ≤ n) : Bounded n (string cs) := by
  have body {strict : Bool} {s rest : List Char} (h' : stringBody strict cs.length cs = .ok (s, rest)) :
      rest.length ≤ n := by
    have read : (stringBody strict cs.length cs).toOption = some (s, rest) := by
      rw [h']
      rfl
    exact Nat.le_trans (length_le_of_stringBody read) h
  unfold string
  split
  · next h => exact ⟨rfl, body h⟩
  · split
    · next h => exact ⟨rfl, body h⟩
    · exact bounded_broken _ _

theorem bounded_scaledToken (negative : Bool) (significand : Nat) (exp : Int)
    (h : rest.length ≤ n) : Bounded n (scaledToken negative significand exp rest) := by
  unfold scaledToken
  split <;> exact ⟨rfl, h⟩

theorem length_splitSign_le (cs : List Char) : (Decimal.splitSign cs).2.length ≤ cs.length := by
  unfold Decimal.splitSign
  split
  · exact Nat.le_succ _
  · exact Nat.le_succ _
  · exact Nat.le_refl _

theorem bounded_exponent (negative : Bool) (significand : Nat) (exp : Int) (h : cs.length ≤ n) :
    Bounded n (exponent negative significand exp cs) := by
  have after : ((Decimal.splitSign cs).2.dropWhile Char.isDigit).length ≤ n :=
    Nat.le_trans (List.dropWhile_sublist _).length_le (Nat.le_trans (length_splitSign_le cs) h)
  unfold exponent
  dsimp only
  split
  · exact bounded_broken _ _
  · split
    · exact bounded_broken _ _
    · split
      · split <;> exact ⟨rfl, after⟩
      · exact bounded_scaledToken _ _ _ after

theorem bounded_fraction (negative : Bool) (significand : Nat) (exp : Int) (h : cs.length ≤ n) :
    Bounded n (fraction negative significand exp cs) := by
  have after : (cs.dropWhile Char.isDigit).length ≤ n :=
    Nat.le_trans (List.dropWhile_sublist _).length_le h
  unfold fraction
  split
  · exact bounded_broken _ _
  · split
    · exact bounded_broken _ _
    · dsimp only
      split
      · next mark =>
        rw [mark] at after
        exact bounded_exponent _ _ _ (Nat.le_of_succ_le after)
      · next mark =>
        rw [mark] at after
        exact bounded_exponent _ _ _ (Nat.le_of_succ_le after)
      · exact bounded_scaledToken _ _ _ after

theorem bounded_integer (negative : Bool) (m : Nat) (h : rest.length ≤ n) :
    Bounded n (.plain (integer negative m), rest) := by
  unfold integer
  split
  · split <;> exact ⟨rfl, h⟩
  · exact ⟨rfl, h⟩

theorem bounded_number (negative : Bool) (h : cs.tail.length ≤ n) :
    Bounded n (number negative cs) := by
  cases cs with
  | nil => exact bounded_broken _ _
  | cons c cs =>
    unfold number
    dsimp only
    split
    · exact bounded_broken _ _
    · next digit =>
      have digit : c.isDigit = true := by simpa using digit
      have after : (cs.dropWhile Char.isDigit).length ≤ n :=
        Nat.le_trans (List.dropWhile_sublist _).length_le h
      rw [List.dropWhile_cons_of_pos digit]
      split
      · exact bounded_broken _ _
      · split
        · next mark =>
          rw [mark] at after
          exact bounded_fraction _ _ _ (Nat.le_of_succ_le after)
        · next mark =>
          rw [mark] at after
          exact bounded_exponent _ _ _ (Nat.le_of_succ_le after)
        · next mark =>
          rw [mark] at after
          exact bounded_exponent _ _ _ (Nat.le_of_succ_le after)
        · split
          · exact bounded_integer _ _ after
          · exact bounded_scaledToken _ _ _ after

end

/-- The ways in which a token is read after its first character. -/
inductive ReadBy (c : Char) : (List Char → Token × List Char) → Prop
  | symbol (t : Token) (brace : t.startsObject = true → c = '\x7b') : ReadBy c fun cs => (t, cs)
  | string : ReadBy c string
  | word (expected : List Char) (value : Json) (letters : expected.all Char.isAlpha = true)
      (scalar : value.object? = none) : ReadBy c (word expected value)
  | number : ReadBy c (number true)
  | digits : ReadBy c fun cs => number false (c :: cs)
  | stray : ReadBy c fun _ => (.stray, [])

theorem readBy_ite {c : Char} {p : Prop} [Decidable p] {read other : List Char → Token × List Char}
    (h : p → ReadBy c read) (h' : ReadBy c other) : ReadBy c fun cs => if p then read cs else other cs := by
  by_cases hp : p
  · simpa only [if_pos hp] using h hp
  · simpa only [if_neg hp] using h'

theorem readBy_tokenAt (c : Char) : ReadBy c (tokenAt c) := by
  have other (t : Token) (h : t.startsObject = false) : ReadBy c fun cs => (t, cs) :=
    .symbol t fun start => absurd start (by simp [h])
  unfold tokenAt
  refine readBy_ite (fun _ => other _ rfl) ?_
  refine readBy_ite (fun _ => other _ rfl) ?_
  refine readBy_ite (fun brace => .symbol _ fun _ => brace) ?_
  iterate 3 refine readBy_ite (fun _ => other _ rfl) ?_
  refine readBy_ite (fun _ => .string) ?_
  iterate 3 refine readBy_ite (fun _ => .word _ _ rfl rfl) ?_
  refine readBy_ite (fun _ => .number) ?_
  exact readBy_ite (fun _ => .digits) .stray

theorem tokenAt_stopsAt {b : Char} (hb : IsBreak b) (c : Char) : StopsAt b (tokenAt c) := by
  have ways := readBy_tokenAt c
  generalize tokenAt c = read at ways ⊢
  cases ways with
  | symbol t _ =>
    intro cs more
    unfold taken?
    dsimp only
    split <;> rfl
  | string => exact string_stopsAt hb
  | word expected value letters _ =>
    have noBreak : b ∉ expected := by
      intro h
      have letter := List.all_eq_true.1 letters b h
      rcases hb with rfl | rfl <;> cases letter
    exact word_stopsAt noBreak value
  | number => exact number_stopsAt hb.endsNumber true
  | digits => exact fun cs more => number_stopsAt hb.endsNumber false (c :: cs) more
  | stray => exact fun _ _ => rfl

theorem length_tokenAt_le (c : Char) (cs : List Char) : (tokenAt c cs).2.length ≤ cs.length := by
  have ways := readBy_tokenAt c
  generalize tokenAt c = read at ways ⊢
  cases ways with
  | symbol t _ => exact Nat.le_refl _
  | string => exact (bounded_string (Nat.le_refl _)).shorter
  | word expected _ _ scalar => exact (bounded_word expected scalar (Nat.le_refl _)).shorter
  | number => exact (bounded_number true (List.tail_sublist cs).length_le).shorter
  | digits => exact (bounded_number false (Nat.le_refl _)).shorter
  | stray => exact Nat.zero_le _

theorem eq_brace_of_startsObject {c : Char} {cs : List Char}
    (h : (tokenAt c cs).1.startsObject = true) : c = '\x7b' := by
  have ways := readBy_tokenAt c
  generalize tokenAt c = read at ways h
  have scalar {n : Nat} (bounded : Bounded n (read cs)) : c = '\x7b' := by
    rw [bounded.scalar] at h
    cases h
  cases ways with
  | symbol t brace => exact brace h
  | string => exact scalar (bounded_string (Nat.le_refl _))
  | word expected _ _ plain => exact scalar (bounded_word expected plain (Nat.le_refl _))
  | number => exact scalar (bounded_number true (Nat.le_refl _))
  | digits => exact scalar (bounded_number false (Nat.le_refl _))
  | stray => cases h

theorem isBlank_of_isSpace {c : Char} (h : isSpace c = true) : Text.isBlank c = true := by
  simp only [isSpace, Bool.or_eq_true, beq_iff_eq] at h
  rcases h with ((rfl | rfl) | rfl) | rfl <;> decide

theorem scanAux_of_le {m n : Nat} {cs : List Char} (hm : cs.length ≤ m) (hn : cs.length ≤ n) :
    scanAux m cs = scanAux n cs := by
  induction m generalizing n cs with
  | zero =>
    obtain rfl := List.length_eq_zero_iff.1 (Nat.le_zero.1 hm)
    cases n <;> rfl
  | succ m ih =>
    cases n with
    | zero =>
      obtain rfl := List.length_eq_zero_iff.1 (Nat.le_zero.1 hn)
      rfl
    | succ n =>
      have spaces := (List.dropWhile_sublist (l := cs) isSpace).length_le
      unfold scanAux
      split
      · rfl
      · next c rest h =>
        rw [h] at spaces
        have shorter := length_tokenAt_le c rest
        simp only [List.length_cons] at spaces
        dsimp only
        rw [ih (n := n) (by omega) (by omega)]

theorem scan_eq (cs : List Char) : scan cs =
    match cs.dropWhile isSpace with
    | [] => []
    | c :: rest => ⟨(tokenAt c rest).1, c :: rest⟩ :: scan (tokenAt c rest).2 := by
  have spaces := (List.dropWhile_sublist (l := cs) isSpace).length_le
  rw [scan, scanAux_of_le (Nat.le_refl _) (Nat.le_succ _), scanAux]
  cases h : cs.dropWhile isSpace with
  | nil => rfl
  | cons c rest =>
    rw [h, List.length_cons] at spaces
    have shorter := length_tokenAt_le c rest
    dsimp only
    rw [scan, scanAux_of_le (n := cs.length) (Nat.le_refl _) (by omega)]

def token? (lexeme : Lexeme) : Option Token :=
  if lexeme.token.isReadable then some lexeme.token else none

def tokens? (text : List Char) : Option (List Token) := (scan text).mapM token?

theorem mapM_token?_cons (lexeme : Lexeme) (rest : List Lexeme) :
    (lexeme :: rest).mapM token? =
      if lexeme.token.isReadable then (rest.mapM token?).map (lexeme.token :: ·) else none := by
  rw [List.mapM_cons, token?]
  split
  · exact (Option.map_eq_bind ..).symm
  · rfl

theorem tokens?_eq (cs : List Char) : tokens? cs =
    match cs.dropWhile isSpace with
    | [] => some []
    | c :: rest => (taken? (tokenAt c rest)).bind fun (t, after) => (tokens? after).map (t :: ·) := by
  rw [tokens?, scan_eq]
  cases cs.dropWhile isSpace with
  | nil => rfl
  | cons c rest =>
    dsimp only
    rw [mapM_token?_cons, taken?]
    split <;> rfl

theorem tokens?_congr {cs ds : List Char} (h : cs.dropWhile isSpace = ds.dropWhile isSpace) :
    tokens? cs = tokens? ds := by
  rw [tokens?_eq cs, h, ← tokens?_eq ds]

/-- A break parts the tokens before it from those after it. -/
theorem tokens?_append {b : Char} (hb : IsBreak b) (cs more : List Char) :
    tokens? (cs ++ b :: more) =
      (tokens? cs).bind fun ts => (tokens? more).map (ts ++ ·) := by
  have blank : (b :: more).dropWhile isSpace = more.dropWhile isSpace :=
    List.dropWhile_cons_of_pos hb.isSpace
  -- A token can be of any length, so the induction is on what is left and not on the characters.
  induction n : cs.length using Nat.strongRecOn generalizing cs with
  | ind n ih =>
    subst n
    have spaces := (List.dropWhile_sublist (l := cs) isSpace).length_le
    rw [tokens?_eq cs]
    cases h : cs.dropWhile isSpace with
    | nil =>
      have same : (cs ++ b :: more).dropWhile isSpace = more.dropWhile isSpace := by
        rw [List.dropWhile_append, h, ← blank]
        rfl
      rw [tokens?_congr same]
      simp
    | cons c rest =>
      have same : (cs ++ b :: more).dropWhile isSpace = c :: (rest ++ b :: more) := by
        rw [List.dropWhile_append, h]
        rfl
      have shorter := length_tokenAt_le c rest
      rw [h, List.length_cons] at spaces
      rw [tokens?_eq (cs ++ b :: more), same]
      dsimp only
      rw [tokenAt_stopsAt hb, taken?]
      split
      · have after := ih (tokenAt c rest).2.length (by omega) (tokenAt c rest).2 rfl
        simp only [Option.map_some, Option.bind_some]
        rw [after, Option.map_bind, Option.bind_map]
        congr 1
        funext ts
        rw [Function.comp, Function.comp, Option.map_map]
        rfl
      · rfl

end Lexeme

end SettingsSweep.Json

import SettingsSweep.Proofs.Json.Spelled
import SettingsSweep.Proofs.Number.PlainText

/-!
Numerals as tokens. The whole part is read up to what is no digit, and what is one token alone is one in front of all that
ends a number. So an integer reads back if it fits a word.
-/

set_option autoImplicit false

namespace SettingsSweep.Json.Lexeme

structure IsWhole (digits : List Char) : Prop where
  visible : digits ≠ []
  all : ∀ c ∈ digits, c.isDigit = true
  lead : digits.head? = some '0' → digits = ['0']

theorem IsWhole.lead_digit {digits : List Char} (h : IsWhole digits) : ∃ c ∈ digits.head?, c.isDigit = true := by
  obtain ⟨c, rest, rfl⟩ := List.exists_cons_of_ne_nil h.visible
  exact ⟨c, rfl, h.all c List.mem_cons_self⟩

theorem isWhole_toDigits (n : Nat) : IsWhole (Nat.toDigits 10 n) where
  visible := Nat.toDigits_ne_nil
  all _ hc := Nat.isDigit_of_mem_toDigits (by decide) (by decide) hc
  lead zero := by
    by_cases some : n = 0
    · subst some
      rfl
    · exact absurd zero (head?_toDigits_ne_zero some)

theorem le_ofDigitChars (digits : List Char) (n : Nat) : n ≤ Nat.ofDigitChars 10 digits n := by
  induction digits generalizing n with
  | nil => exact Nat.le_refl n
  | cons d digits ih =>
    rw [Nat.ofDigitChars_cons]
    exact Nat.le_trans (by omega) (ih _)

theorem accumulate_eq {digits : List Char} {n : Nat} (fits : Nat.ofDigitChars 10 digits n ≤ maxSignificand) :
    accumulate n digits = (Nat.ofDigitChars 10 digits n, []) := by
  induction digits generalizing n with
  | nil => rfl
  | cons d digits ih =>
    rw [Nat.ofDigitChars_cons] at fits ⊢
    have next := Nat.le_trans (le_ofDigitChars digits _) fits
    rw [accumulate]
    exact (if_neg (Nat.not_lt.2 next)).trans (ih fits)

section

variable {digits tail : List Char}

theorem takeWhile_digits (all : ∀ c ∈ digits, c.isDigit = true) (stop : ∀ c ∈ tail.head?, c.isDigit = false) :
    (digits ++ tail).takeWhile Char.isDigit = digits := by
  rw [List.takeWhile_append_of_pos all]
  cases tail with
  | nil => simp
  | cons c tail => rw [List.takeWhile_cons_of_neg (by simp [stop c rfl]), List.append_nil]

theorem dropWhile_digits (all : ∀ c ∈ digits, c.isDigit = true) (stop : ∀ c ∈ tail.head?, c.isDigit = false) :
    (digits ++ tail).dropWhile Char.isDigit = tail := by
  rw [List.dropWhile_append_of_pos all]
  cases tail with
  | nil => rfl
  | cons c tail => rw [List.dropWhile_cons_of_neg (by simp [stop c rfl])]

/-- What a number goes on with after its whole part. -/
def afterWhole (negative : Bool) (significand : Nat) : List Char → Token × List Char
  | '.' :: rest => fraction negative significand 0 rest
  | 'e' :: rest | 'E' :: rest => exponent negative significand 0 rest
  | rest => (.plain (integer negative significand), rest)

theorem number_eq (negative : Bool) (whole : IsWhole digits) (fits : Decimal.natOfDigits digits ≤ maxSignificand)
    (stop : ∀ c ∈ tail.head?, c.isDigit = false) :
    number negative (digits ++ tail) = afterWhole negative (Decimal.natOfDigits digits) tail := by
  obtain ⟨c, rest, rfl⟩ := List.exists_cons_of_ne_nil whole.visible
  have digit : c.isDigit = true := whole.all c List.mem_cons_self
  have lead : ¬(c = '0' ∧ ((rest ++ tail).head?.map Char.isDigit) = some true) := by
    rintro ⟨rfl, next⟩
    obtain rfl : rest = [] := (List.cons.inj (whole.lead rfl)).2
    cases tail with
    | nil => cases next
    | cons d tail => simp [stop d rfl] at next
  have taken := takeWhile_digits whole.all stop
  have left := dropWhile_digits whole.all stop
  rw [List.cons_append] at taken left ⊢
  unfold number
  dsimp only
  rw [if_neg (by simp [digit]), if_neg lead, taken, left, accumulate_eq fits]
  unfold afterWhole
  cases tail with
  | nil => rfl
  | cons d tail =>
    by_cases point : d = '.'
    · subst point
      rfl
    · by_cases lower : d = 'e'
      · subst lower
        rfl
      · by_cases upper : d = 'E'
        · subst upper
          rfl
        · simp [point, lower, upper, Decimal.natOfDigits]

end

theorem ne_of_isDigit {c d : Char} (digit : c.isDigit = true) (other : d.isDigit = false) : c ≠ d := by
  rintro rfl
  rw [digit] at other
  cases other

theorem tokenAt_of_isDigit {c : Char} (digit : c.isDigit = true) (cs : List Char) :
    tokenAt c cs = number false (c :: cs) := by
  simp [tokenAt, ne_of_isDigit digit, digit]

theorem isSpace_of_isDigit {c : Char} (digit : c.isDigit = true) : isSpace c = false := by
  simp [isSpace, ne_of_isDigit digit]

section

variable {negative : Bool} {digits : List Char}

theorem tokens?_signed (lead : ∃ c ∈ digits.head?, c.isDigit = true) :
    tokens? (Binary64.signed negative digits) =
      (taken? (number negative digits)).bind fun (t, after) => (tokens? after).map (t :: ·) := by
  obtain ⟨c, head, digit⟩ := lead
  obtain ⟨rest, rfl⟩ := List.head?_eq_some_iff.1 head
  cases negative with
  | true => exact tokens?_cons rfl (c :: rest)
  | false => exact tokenAt_of_isDigit digit rest ▸ tokens?_cons (isSpace_of_isDigit digit) rest

theorem dropWhile_of_tokens?_eq_nil {cs : List Char} (h : tokens? cs = some []) : cs.dropWhile isSpace = [] := by
  rw [tokens?_eq] at h
  cases left : cs.dropWhile isSpace with
  | nil => rfl
  | cons c rest =>
    rw [left] at h
    obtain ⟨_, -, more⟩ := Option.bind_eq_some_iff.1 h
    obtain ⟨_, -, none⟩ := Option.map_eq_some_iff.1 more
    cases none

/-- The text of a number that is one token is that in front of what ends a number, too. -/
theorem spells_signed {t : Token} (lead : ∃ c ∈ digits.head?, c.isDigit = true)
    (one : tokens? (Binary64.signed negative digits) = some [t]) : Spells (Binary64.signed negative digits) [t] := by
  rw [tokens?_signed lead] at one
  obtain ⟨⟨u, after⟩, taken, one⟩ := Option.bind_eq_some_iff.1 one
  obtain ⟨us, rest, same⟩ := Option.map_eq_some_iff.1 one
  obtain ⟨rfl, rfl⟩ := List.cons.inj same
  intro more ends
  have moved : Binary64.signed negative digits ++ more = Binary64.signed negative (digits ++ more) := by
    cases negative <;> rfl
  have lead' : ∃ c ∈ (digits ++ more).head?, c.isDigit = true := by
    obtain ⟨c, head, digit⟩ := lead
    exact ⟨c, by rw [List.head?_append, head]; rfl, digit⟩
  have gone : tokens? (after ++ more) = tokens? more :=
    tokens?_congr (by rw [List.dropWhile_append, dropWhile_of_tokens?_eq_nil rest]; rfl)
  have read : taken? (number negative (digits ++ more)) = some (u, after ++ more) := by
    cases more with
    | nil => rw [List.append_nil, List.append_nil, taken]
    | cons b more =>
      rw [number_stopsAt (ends b rfl), taken]
      rfl
  rw [moved, tokens?_signed lead', read]
  exact congrArg (Option.map (u :: ·)) gone

end

theorem toList_toString_int (n : Int) :
    (toString n).toList = Binary64.signed (decide (n < 0)) (Nat.toDigits 10 n.natAbs) := by
  cases n with
  | ofNat m => simp [Int.toString_eq_repr, Int.repr, Binary64.signed]
  | negSucc m => simp [Int.toString_eq_repr, Int.repr, Binary64.signed, Int.negSucc_lt_zero]

def FitsWord (n : Int) : Prop := -2 ^ 63 ≤ n ∧ n < 2 ^ 64

theorem spells_int {n : Int} (fits : FitsWord n) : Spells (toString n).toList [.plain (.int n)] := by
  have whole := isWhole_toDigits n.natAbs
  have small : Decimal.natOfDigits (Nat.toDigits 10 n.natAbs) ≤ maxSignificand := by
    rw [Decimal.natOfDigits_toDigits, maxSignificand, Nat.pow_eq]
    have := fits.1
    have := fits.2
    omega
  have value : integer (decide (n < 0)) n.natAbs = .int n := by
    have := fits.1
    unfold integer
    by_cases negative : n < 0
    · rw [if_pos (decide_eq_true negative), if_pos (by rw [Nat.pow_eq]; omega)]
      congr 1
      omega
    · rw [if_neg (by simp [negative])]
      congr 1
      omega
  have number : number (decide (n < 0)) (Nat.toDigits 10 n.natAbs) = (.plain (.int n), []) := by
    rw [← List.append_nil (Nat.toDigits 10 n.natAbs), number_eq _ whole small (by simp), Decimal.natOfDigits_toDigits]
    exact congrArg (fun v => (Token.plain v, [])) value
  rw [toList_toString_int]
  refine spells_signed whole.lead_digit ?_
  rw [tokens?_signed whole.lead_digit, number]
  rfl

end SettingsSweep.Json.Lexeme

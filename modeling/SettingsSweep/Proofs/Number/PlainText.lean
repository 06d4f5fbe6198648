import SettingsSweep.Proofs.Axis.RangeText
import SettingsSweep.Proofs.Number.Shortest

/-!
The plain text of a number: it has no digit that is not needed, it reads back as the number, and no decimal with fewer
digits does.
-/

set_option autoImplicit false

namespace SettingsSweep

theorem getLast?_toDigits (n : Nat) : (Nat.toDigits 10 n).getLast? = some (n % 10).digitChar := by
  rcases Nat.lt_or_ge n 10 with lt | ge
  · rw [Nat.toDigits_of_lt_base lt, Nat.mod_eq_of_lt lt]
    rfl
  · rw [Nat.toDigits_of_base_le (by decide) ge, List.getLast?_concat]

theorem digitChar_ne_zero {d : Nat} (lt : d < 10) (some : d ≠ 0) : d.digitChar ≠ '0' := by
  have digits : ∀ d < 10, d ≠ 0 → d.digitChar ≠ '0' := by decide
  exact digits d lt some

theorem head?_toDigits_ne_zero {n : Nat} (some : n ≠ 0) : (Nat.toDigits 10 n).head? ≠ .some '0' := by
  induction n using Nat.strong_induction_on with
  | _ n ih =>
    rcases Nat.lt_or_ge n 10 with lt | ge
    · rw [Nat.toDigits_of_lt_base lt, List.head?_cons]
      exact fun zero => digitChar_ne_zero lt some (Option.some.inj zero)
    · rw [Nat.toDigits_of_base_le (by decide) ge, List.head?_append_of_ne_nil _ Nat.toDigits_ne_nil]
      exact ih (n / 10) (by omega) (by omega)

def pointed (whole fraction : List Char) : List Char := if fraction = [] then whole else whole ++ '.' :: fraction

theorem eq_of_pointed_eq {whole fraction text : List Char} (h : pointed whole fraction = text) (none : '.' ∉ text) :
    whole = text ∧ fraction = [] := by
  subst h
  unfold pointed at none ⊢
  split
  · next empty => exact ⟨rfl, empty⟩
  · next some =>
    rw [if_neg some] at none
    simp at none

/-- Every digit is needed: no zero leads the whole part or ends the fraction, and a minus stands before no zero. -/
structure IsPlain (negative : Bool) (whole fraction : List Char) : Prop where
  digits : ∀ c ∈ whole ++ fraction, c.isDigit = true
  visible : whole ≠ []
  lead : whole.head? = some '0' → whole = ['0']
  tail : fraction.getLast? ≠ some '0'
  minus : negative = true → ∃ c ∈ whole ++ fraction, c ≠ '0'

namespace IsPlain

variable {negative : Bool} {whole fraction : List Char} (h : IsPlain negative whole fraction)
include h

theorem all_whole : whole.all Char.isDigit = true :=
  List.all_eq_true.2 fun c hc => h.digits c (List.mem_append_left _ hc)

theorem all_fraction : fraction.all Char.isDigit = true :=
  List.all_eq_true.2 fun c hc => h.digits c (List.mem_append_right _ hc)

theorem unsigned : Numeral.Unsigned (pointed whole fraction) := by
  have script {digits : List Char} (all : digits.all Char.isDigit = true) : digits.all Text.isDigit = true :=
    List.all_eq_true.2 fun c hc => Text.isDigit_of_ascii c (List.all_eq_true.1 all c hc)
  unfold pointed
  split
  · exact .whole h.visible (script h.all_whole)
  · exact .pointed (.inl h.visible) (script h.all_whole) (script h.all_fraction)

theorem signed : Numeral.Signed (Binary64.signed negative (pointed whole fraction)) := by
  cases negative
  · exact .plain h.unsigned
  · exact .minus h.unsigned

theorem ofText? : Decimal.ofText? (Binary64.signed negative (pointed whole fraction)) =
    some ⟨negative, Decimal.natOfDigits (whole ++ fraction), -fraction.length⟩ := by
  have sign : Decimal.splitSign (Binary64.signed negative (pointed whole fraction)) =
      (negative, pointed whole fraction) := by
    cases negative
    · exact h.unsigned.splitSign
    · rfl
  unfold Decimal.ofText?
  rw [sign]
  dsimp only
  unfold pointed
  split
  · next none =>
    rw [Decimal.unsigned?_whole negative h.visible h.all_whole, none, List.append_nil]
    rfl
  · exact Decimal.unsigned?_pointed negative (.inl h.visible) h.all_whole h.all_fraction

end IsPlain

namespace Binary64

theorem all_zeros_append (zeros : Nat) (n : Nat) :
    ∀ c ∈ List.replicate zeros '0' ++ Nat.toDigits 10 n, c.isDigit = true := by
  intro c hc
  rcases List.mem_append.1 hc with zero | digit
  · rw [List.eq_of_mem_replicate zero]
    decide
  · exact Nat.isDigit_of_mem_toDigits (by decide) (by decide) digit

theorem natOfDigits_zeros_append (zeros : Nat) (n : Nat) :
    Decimal.natOfDigits (List.replicate zeros '0' ++ Nat.toDigits 10 n) = n := by
  rw [Decimal.natOfDigits_append, Decimal.natOfDigits_toDigits, Decimal.natOfDigits, Nat.ofDigitChars_replicate_zero,
    Nat.mul_zero, Nat.zero_mul, Nat.zero_add]

/-- The text is plain and shows the decimal, with as many places after the point as that has. -/
def Displays (text : List Char) (n : Nat) (k : Int) : Prop :=
  ∃ whole fraction, text = pointed whole fraction ∧ IsPlain true whole fraction ∧
    fraction.length = (-k).toNat ∧
    (Decimal.natOfDigits (whole ++ fraction) : ℚ) * 10 ^ (-fraction.length : Int) = n * 10 ^ k

section

variable {n : Nat} {k : Int}

theorem displays_whole (ends : n % 10 ≠ 0) (nonneg : 0 ≤ k) :
    Displays (Nat.toDigits 10 n ++ List.replicate k.natAbs '0') n k := by
  have mem := List.mem_of_getLast? (getLast?_toDigits n)
  refine ⟨_, [], rfl, ⟨?_, ?_, ?_, nofun, ?_⟩, (Int.toNat_of_nonpos (by omega)).symm, ?_⟩
  · intro c hc
    rw [List.append_nil] at hc
    exact all_zeros_append k.natAbs n c (List.mem_append.2 (List.mem_append.1 hc).symm)
  · exact List.append_ne_nil_of_left_ne_nil Nat.toDigits_ne_nil _
  · rw [List.head?_append_of_ne_nil _ Nat.toDigits_ne_nil]
    exact fun zero => absurd zero (head?_toDigits_ne_zero (by omega))
  · exact fun _ => ⟨_, by simp [mem], digitChar_ne_zero (by omega) ends⟩
  · have power : (10 : ℚ) ^ k = 10 ^ k.natAbs := by
      rw [← zpow_natCast]
      congr 1
      omega
    rw [List.append_nil, Decimal.natOfDigits_append, Decimal.natOfDigits_toDigits, List.length_replicate,
      List.length_nil, Decimal.natOfDigits, Nat.ofDigitChars_replicate_zero, power]
    simp

theorem displays_fraction (ends : n % 10 ≠ 0) (neg : k < 0) {zeros : Nat} {padded : List Char}
    (enough : k.natAbs + 1 - (Nat.toDigits 10 n).length = zeros)
    (eq : padded = List.replicate zeros '0' ++ Nat.toDigits 10 n) :
    Displays (padded.take (padded.length - k.natAbs) ++ '.' :: padded.drop (padded.length - k.natAbs)) n k := by
  have length : padded.length = zeros + (Nat.toDigits 10 n).length := by
    rw [eq, List.length_append, List.length_replicate]
  have parts := List.take_append_drop (padded.length - k.natAbs) padded
  have places : (padded.drop (padded.length - k.natAbs)).length = k.natAbs := by
    rw [List.length_drop]
    omega
  have fraction : padded.drop (padded.length - k.natAbs) ≠ [] := List.ne_nil_of_length_pos (by omega)
  have last : (n % 10).digitChar ≠ '0' := digitChar_ne_zero (by omega) ends
  have back : padded.getLast? = some (n % 10).digitChar := by
    rw [eq, List.getLast?_append_of_ne_nil _ Nat.toDigits_ne_nil, getLast?_toDigits]
  refine ⟨_, _, (if_neg fraction).symm, ⟨?_, ?_, ?_, ?_, ?_⟩, by omega, ?_⟩
  · rw [parts, eq]
    exact all_zeros_append zeros n
  · refine List.ne_nil_of_length_pos ?_
    rw [List.length_take]
    omega
  · -- Either the digits reach over the point, or just one zero is put before it.
    intro zero
    by_cases reach : zeros = 0
    · rw [List.head?_take, if_neg (by omega), eq, reach, List.replicate_zero, List.nil_append] at zero
      exact absurd zero (head?_toDigits_ne_zero (by omega))
    · have one : padded.length - k.natAbs = 1 := by omega
      rw [one, List.take_one] at zero ⊢
      rw [Option.head?_toList] at zero
      rw [zero]
      rfl
  · rw [← List.getLast?_append_of_ne_nil _ fraction, parts, back]
    exact fun zero => last (Option.some.inj zero)
  · rw [parts]
    exact fun _ => ⟨_, List.mem_of_getLast? back, last⟩
  · have power : (-(k.natAbs : Int)) = k := by omega
    rw [parts, places, power, eq, natOfDigits_zeros_append]

/-- A decimal without a zero at the end of its digits is written plainly, wherever its point is. -/
theorem displays_positional (ends : n % 10 ≠ 0) (k : Int) : Displays (positional n k) n k := by
  unfold positional
  dsimp only
  split
  · next nonneg => exact displays_whole ends nonneg
  · next neg => exact displays_fraction ends (not_le.1 neg) rfl rfl

end

def HasDigits (q : ℚ) (count : Nat) : Prop := ∃ (n : Nat) (k : Int), n < 10 ^ count ∧ |q| = n * 10 ^ k

/-- A plain numeral with as few digits as any decimal that reads as the same number, and with 17 at most. -/
structure IsSpelling (text : List Char) (d : Decimal) : Prop where
  plain : ∃ negative whole fraction, text = signed negative (pointed whole fraction) ∧ IsPlain negative whole fraction
  read : Decimal.ofText? text = some d
  few : HasDigits d.toRat 17
  fewest : ∀ (other : Decimal) (count : Nat), other.toBinary64 = d.toBinary64 → HasDigits other.toRat count →
    HasDigits d.toRat count

theorem IsSpelling.ofText? {text : List Char} {d : Decimal} (h : IsSpelling text d) :
    Binary64.ofText? text = some d.toBinary64 := by
  rw [Binary64.ofText?, h.read]

theorem IsSpelling.trimChars {text : List Char} {d : Decimal} (h : IsSpelling text d) : Text.trimChars text = text := by
  obtain ⟨negative, whole, fraction, rfl, plain⟩ := h.plain
  have solid := plain.signed.not_blank
  have bare : [] ++ (signed negative (pointed whole fraction) ++ []) = signed negative (pointed whole fraction) := by
    rw [List.nil_append, List.append_nil]
  rw [← bare]
  exact (Text.trimChars_append rfl rfl (fun c hc => solid c (List.mem_of_head? hc))
    (fun c hc => solid c (List.mem_of_getLast? hc)) plain.signed.ne_nil).trans bare.symm

theorem isSpelling_zero : IsSpelling ['0'] ⟨false, 0, 0⟩ where
  plain :=
    ⟨false, ['0'], [], rfl, fun _ hc => List.mem_singleton.1 hc ▸ rfl, List.cons_ne_nil _ _, fun _ => rfl, nofun, nofun⟩
  read := by decide
  few := ⟨0, 0, by decide, by simp [Decimal.toRat]⟩
  fewest _ _ _ _ := ⟨0, 0, Nat.pow_pos (by decide), by simp [Decimal.toRat]⟩

/-- The plain text of a number reads back as the number. -/
theorem isSpelling_toPlain (s : Bool) {m : Nat} {e : Int} (canonical : Canonical m e) (some : m ≠ 0) :
    ∃ d, IsSpelling (toPlain (.finite s m e canonical)) d ∧ d.toBinary64 = .finite s m e canonical := by
  have shortest := shortest_shortestDigits .up canonical some
  obtain ⟨whole, fraction, text, plain, -, value⟩ := displays_positional shortest.mod_ten (shortestDigits .up m e).2
  have written : toPlain (.finite s m e canonical) = signed s (pointed whole fraction) := by
    rw [toPlain, if_neg some, ← text]
  have plain : IsPlain s whole fraction := { plain with minus := fun _ => plain.minus rfl }
  have size : |Decimal.toRat ⟨s, Decimal.natOfDigits (whole ++ fraction), -fraction.length⟩| =
      (shortestDigits .up m e).1 * 10 ^ (shortestDigits .up m e).2 := by rw [Decimal.abs_toRat, value]
  have read : Decimal.toBinary64 ⟨s, Decimal.natOfDigits (whole ++ fraction), -fraction.length⟩ =
      .finite s m e canonical := (Decimal.toBinary64_eq_iff some).2 ⟨rfl, size ▸ shortest.near⟩
  refine ⟨_, ⟨⟨s, whole, fraction, written, plain⟩, written ▸ plain.ofText?, ?_, ?_⟩, read⟩
  · exact ⟨_, _, shortest.lt canonical some, size⟩
  · rintro other count same ⟨n, k, few, value⟩
    rw [read, Decimal.toBinary64_eq_iff some, value] at same
    exact ⟨_, _, shortest.fewest some same.2 few, size⟩

end Binary64

end SettingsSweep

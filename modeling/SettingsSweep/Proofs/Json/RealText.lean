import SettingsSweep.Proofs.Json.Numeral

/-!
The text of a real number in a document. Rightly read it stands for the number. The reader takes it for one division by a
power of ten, which is right as long as dividend and divisor are exact: it is, for a number with at most fifteen digits,
some of them after the point.
-/

set_option autoImplicit false

namespace SettingsSweep

open Json Json.Lexeme

/-- The text of a number in a document is one token, and that stands for the number. -/
def Binary64.ReadsBack (x : Binary64) : Prop :=
  tokens? x.toDocumentText = some [.plain (.real x)]

instance (x : Binary64) : Decidable x.ReadsBack :=
  decidable_of_iff ((match tokens? x.toDocumentText with
    | some [.plain (.real y)] => some y
    | _ => none) = some x) (by
      unfold Binary64.ReadsBack
      split
      · next y read => simp [read]
      · next other =>
        simp only [reduceCtorEq, false_iff]
        exact other x)

theorem splitSign_signed {digits : List Char} (lead : ∃ c ∈ digits.head?, c.isDigit = true) (negative : Bool) :
    Decimal.splitSign (Binary64.signed negative digits) = (negative, digits) := by
  cases negative with
  | true => rfl
  | false =>
    obtain ⟨c, head, digit⟩ := lead
    obtain ⟨rest, rfl⟩ := List.head?_eq_some_iff.1 head
    rw [Binary64.signed, if_neg Bool.false_ne_true]
    unfold Decimal.splitSign
    split
    · next same => exact absurd (List.cons.inj same).1 (ne_of_isDigit digit rfl)
    · next same => exact absurd (List.cons.inj same).1 (ne_of_isDigit digit rfl)
    · rfl

namespace Json.Lexeme

/-! ### The parts of a numeral -/

section

variable {whole fraction run : List Char}

theorem fraction_eq (negative : Bool) (visible : fraction ≠ []) (all : ∀ c ∈ fraction, c.isDigit = true) {n : Nat}
    (fits : Nat.ofDigitChars 10 fraction n ≤ maxSignificand) :
    Lexeme.fraction negative n 0 fraction =
        scaledToken negative (Nat.ofDigitChars 10 fraction n) (-fraction.length) [] ∧
      ∀ rest, Lexeme.fraction negative n 0 (fraction ++ 'e' :: rest) =
        exponent negative (Nat.ofDigitChars 10 fraction n) (-fraction.length) rest := by
  obtain ⟨c, cs, rfl⟩ := List.exists_cons_of_ne_nil visible
  have digit : c.isDigit = true := all c List.mem_cons_self
  constructor
  · unfold Lexeme.fraction
    dsimp only
    rw [if_neg (by simp [digit]), List.takeWhile_eq_self_iff.2 all, List.dropWhile_eq_nil_iff.2 all, accumulate_eq fits]
    simp
  · intro rest
    have stop : ∀ d ∈ ('e' :: rest).head?, d.isDigit = false := by
      rintro _ ⟨⟩
      rfl
    have taken := takeWhile_digits all stop
    have left := dropWhile_digits all stop
    rw [List.cons_append] at taken left ⊢
    unfold Lexeme.fraction
    dsimp only
    rw [if_neg (by simp [digit]), taken, left, accumulate_eq fits]
    simp

def exponentSign (down : Bool) : Char := if down then '-' else '+'

theorem splitSign_exponentSign (down : Bool) (run : List Char) :
    Decimal.splitSign (exponentSign down :: run) = (down, run) := by
  cases down <;> rfl

theorem exponentOverflow?_eq_none {n : Nat} (fits : Nat.ofDigitChars 10 run n ≤ maxExponent) :
    exponentOverflow? n run = none := by
  induction run generalizing n with
  | nil => rfl
  | cons d run ih =>
    rw [Nat.ofDigitChars_cons] at fits
    have next := Nat.le_trans (le_ofDigitChars run _) fits
    rw [exponentOverflow?]
    exact (if_neg (Nat.not_lt.2 next)).trans (ih fits)

theorem exponent_eq (negative : Bool) (significand : Nat) (exp : Int) (down : Bool) (visible : run ≠ [])
    (all : ∀ c ∈ run, c.isDigit = true) (fits : Decimal.natOfDigits run ≤ maxExponent) :
    exponent negative significand exp (exponentSign down :: run) = scaledToken negative significand
      (if down then exp - Decimal.natOfDigits run else exp + Decimal.natOfDigits run) [] := by
  obtain ⟨c, cs, rfl⟩ := List.exists_cons_of_ne_nil visible
  have digit : c.isDigit = true := all c List.mem_cons_self
  unfold exponent
  rw [splitSign_exponentSign]
  dsimp only
  rw [if_neg (by simp [digit]), List.takeWhile_eq_self_iff.2 all, List.dropWhile_eq_nil_iff.2 all]
  rw [exponentOverflow?_eq_none fits]

/-- What a numeral is rightly read as, and that the reader scales its digits alike if it can hold them. -/
structure Reads (negative : Bool) (digits : List Char) (significand : Nat) (exp : Int) : Prop where
  lead : ∃ c ∈ digits.head?, c.isDigit = true
  rightly : Decimal.ofText? (Binary64.signed negative digits) = some ⟨negative, significand, exp⟩
  number : significand ≤ maxSignificand → Lexeme.number negative digits = scaledToken negative significand exp []

theorem IsWhole.lead_append (isWhole : IsWhole whole) (tail : List Char) :
    ∃ c ∈ (whole ++ tail).head?, c.isDigit = true := by
  obtain ⟨c, head, digit⟩ := isWhole.lead_digit
  exact ⟨c, by rw [List.head?_append, head]; rfl, digit⟩

theorem lead_pointed (isWhole : IsWhole whole) (fraction tail : List Char) :
    ∃ c ∈ (pointed whole fraction ++ tail).head?, c.isDigit = true := by
  unfold pointed
  split
  · exact isWhole.lead_append _
  · rw [List.append_assoc]
    exact isWhole.lead_append _

theorem ofDigitChars_natOfDigits (whole fraction : List Char) :
    Nat.ofDigitChars 10 fraction (Decimal.natOfDigits whole) = Decimal.natOfDigits (whole ++ fraction) :=
  (Nat.ofDigitChars_append 0).symm

theorem natOfDigits_le_of_append (fits : Decimal.natOfDigits (whole ++ fraction) ≤ maxSignificand) :
    Decimal.natOfDigits whole ≤ maxSignificand ∧
      Nat.ofDigitChars 10 fraction (Decimal.natOfDigits whole) ≤ maxSignificand := by
  rw [← ofDigitChars_natOfDigits] at fits
  exact ⟨Nat.le_trans (le_ofDigitChars fraction _) fits, fits⟩

theorem reads_pointed (negative : Bool) (isWhole : IsWhole whole) (visible : fraction ≠ [])
    (all : ∀ c ∈ fraction, c.isDigit = true) :
    Reads negative (whole ++ '.' :: fraction) (Decimal.natOfDigits (whole ++ fraction)) (-fraction.length) where
  lead := isWhole.lead_append _
  rightly := by
    rw [Decimal.ofText?, splitSign_signed (isWhole.lead_append _)]
    exact Decimal.unsigned?_pointed negative (.inl isWhole.visible) (List.all_eq_true.2 isWhole.all)
      (List.all_eq_true.2 all)
  number fits := by
    obtain ⟨few, fits'⟩ := natOfDigits_le_of_append fits
    rw [number_eq negative isWhole few (by rintro _ ⟨⟩; rfl), afterWhole, (fraction_eq negative visible all fits').1,
      ofDigitChars_natOfDigits]

theorem unsigned?_scientific (negative : Bool) (isWhole : IsWhole whole) (all : ∀ c ∈ fraction, c.isDigit = true)
    (rest : List Char) : Decimal.unsigned? negative (pointed whole fraction ++ 'e' :: rest) =
      (Decimal.exponent? ('e' :: rest)).map fun exp =>
        ⟨negative, Decimal.natOfDigits (whole ++ fraction), exp - fraction.length⟩ := by
  have stop (c : Char) (other : c.isDigit = false) (tail : List Char) : ∀ d ∈ (c :: tail).head?, d.isDigit = false := by
    rintro _ ⟨⟩
    exact other
  unfold pointed Decimal.unsigned?
  split
  · next none =>
    rw [takeWhile_digits isWhole.all (stop 'e' rfl rest), dropWhile_digits isWhole.all (stop 'e' rfl rest), none]
    simp [isWhole.visible]
  · rw [List.append_assoc, List.cons_append, takeWhile_digits isWhole.all (stop '.' rfl _),
      dropWhile_digits isWhole.all (stop '.' rfl _)]
    simp [isWhole.visible, takeWhile_digits all (stop 'e' rfl rest), dropWhile_digits all (stop 'e' rfl rest)]

theorem reads_scientific (negative : Bool) (isWhole : IsWhole whole) (all : ∀ c ∈ fraction, c.isDigit = true)
    (down : Bool) (visible : run ≠ []) (all' : ∀ c ∈ run, c.isDigit = true)
    (small : Decimal.natOfDigits run ≤ maxExponent) :
    Reads negative (pointed whole fraction ++ 'e' :: exponentSign down :: run) (Decimal.natOfDigits (whole ++ fraction))
      ((if down then -(Decimal.natOfDigits run : Int) else Decimal.natOfDigits run) - fraction.length) where
  lead := lead_pointed isWhole fraction _
  rightly := by
    rw [Decimal.ofText?, splitSign_signed (lead_pointed isWhole fraction _)]
    dsimp only
    rw [unsigned?_scientific negative isWhole all, Decimal.exponent?, splitSign_exponentSign]
    simpa [visible] using all'
  number fits := by
    obtain ⟨few, fits'⟩ := natOfDigits_le_of_append fits
    unfold pointed
    split
    · next none =>
      subst none
      rw [number_eq negative isWhole few (by rintro _ ⟨⟩; rfl), afterWhole, exponent_eq _ _ _ _ visible all' small]
      cases down <;> simp
    · next some =>
      rw [List.append_assoc, List.cons_append, number_eq negative isWhole few (by rintro _ ⟨⟩; rfl), afterWhole,
        (fraction_eq negative some all fits').2, exponent_eq _ _ _ _ visible all' small, ofDigitChars_natOfDigits]
      congr 1
      split <;> omega

end

/-! ### The forms of a document's number -/

section

variable {n : Nat} {k : Int}

theorem isWhole_of_isPlain {negative : Bool} {whole fraction : List Char} (h : IsPlain negative whole fraction) :
    IsWhole whole :=
  ⟨h.visible, fun c hc => h.digits c (List.mem_append_left _ hc), h.lead⟩

theorem reads_positional (negative : Bool) (ends : n % 10 ≠ 0) (neg : k < 0) :
    Reads negative (Binary64.positional n k) n k := by
  obtain ⟨whole, fraction, text, plain, places, value⟩ := Binary64.displays_positional ends k
  have length : (-fraction.length : Int) = k := by omega
  have visible : fraction ≠ [] := List.ne_nil_of_length_pos (by omega)
  have digits : Decimal.natOfDigits (whole ++ fraction) = n := by
    rw [length] at value
    exact_mod_cast mul_right_cancel₀ (zpow_ne_zero k (by norm_num)) value
  have reads := reads_pointed negative (isWhole_of_isPlain plain) visible
    (fun c hc => plain.digits c (List.mem_append_right _ hc))
  rw [digits, length] at reads
  rw [text, pointed, if_neg visible]
  exact reads

theorem reads_positional_whole (negative : Bool) (ends : n % 10 ≠ 0) (nonneg : 0 ≤ k) :
    Reads negative (Binary64.positional n k ++ ['.', '0']) (n * 10 ^ (k.toNat + 1)) (-1) := by
  obtain ⟨whole, fraction, text, plain, places, value⟩ := Binary64.displays_positional ends k
  obtain rfl : fraction = [] := List.length_eq_zero_iff.1 (by omega)
  have digits : Decimal.natOfDigits (whole ++ ['0']) = n * 10 ^ (k.toNat + 1) := by
    have power : (10 : ℚ) ^ k = 10 ^ k.toNat := by
      rw [← zpow_natCast]
      congr 1
      omega
    rw [List.append_nil, power] at value
    have exact : Decimal.natOfDigits whole = n * 10 ^ k.toNat := by
      simp at value
      exact_mod_cast value
    rw [Decimal.natOfDigits_append, exact, pow_succ, mul_assoc]
    rfl
  have reads := reads_pointed negative (isWhole_of_isPlain plain) (List.cons_ne_nil '0' []) (by simp)
  rw [digits] at reads
  rw [text]
  exact reads

theorem reads_scientific_form (negative : Bool) (n : Nat) {first : Int}
    (leads : first = k + (Nat.toDigits 10 n).length - 1) (small : first.natAbs ≤ maxExponent) :
    Reads negative (Binary64.scientific (Nat.toDigits 10 n) first) n k := by
  obtain ⟨d, rest, digits⟩ := List.exists_cons_of_ne_nil (Nat.toDigits_ne_nil (b := 10) (n := n))
  have all := (isWhole_toDigits n).all
  have value : Decimal.natOfDigits ([d] ++ rest) = n := by
    rw [List.singleton_append, ← digits, Decimal.natOfDigits_toDigits]
  rw [digits] at all leads ⊢
  have isWhole : IsWhole [d] := ⟨List.cons_ne_nil d [], by simp [all], fun zero => by simpa using zero⟩
  have power : Decimal.natOfDigits (Nat.toDigits 10 first.natAbs) = first.natAbs := Decimal.natOfDigits_toDigits _
  have exp : (if decide (first < 0) = true then -(first.natAbs : Int) else first.natAbs) - rest.length = k := by
    rw [List.length_cons] at leads
    by_cases down : first < 0
    · rw [if_pos (decide_eq_true down)]
      omega
    · rw [if_neg (by simp [down])]
      omega
  have text : Binary64.scientific (d :: rest) first =
      pointed [d] rest ++ 'e' :: exponentSign (decide (first < 0)) :: Nat.toDigits 10 first.natAbs := by
    cases rest <;> simp [Binary64.scientific, pointed, exponentSign]
  have reads := reads_scientific negative isWhole (fun c hc => all c (List.mem_cons_of_mem _ hc))
    (decide (first < 0)) Nat.toDigits_ne_nil (isWhole_toDigits first.natAbs).all (power.le.trans small)
  rw [value, power, exp, ← text] at reads
  exact reads

end

end Json.Lexeme

namespace Binary64

variable {m : Nat} {e : Int}

theorem natAbs_shortestDigits_le (tie : Tie) (canonical : Canonical m e) (some : m ≠ 0) :
    (shortestDigits tie m e).2.natAbs ≤ 400 := by
  have log : m.log2 ≤ 52 := log2_le canonical some
  obtain ⟨-, least, most, -⟩ := canonical
  have top : -350 ≤ topExponent m e ∧ topExponent m e ≤ 350 := by
    unfold topExponent
    omega
  unfold shortestDigits
  dsimp only
  cases found : (List.range 24).findSome? fun (i : Nat) =>
      (((interval m e).inTens (topExponent m e - i)).nearest? tie).map fun n => (n, topExponent m e - i) with
  | none => decide
  | some decimal =>
    obtain ⟨i, inside, hit⟩ := List.exists_of_findSome?_eq_some found
    obtain ⟨n, -, rfl⟩ := Option.map_eq_some_iff.1 hit
    have := List.mem_range.1 inside
    dsimp only [Option.getD_some]
    omega

/-- The text of a number shows its shortest digits. They are read as they are, or as tenths of a whole number. -/
theorem exists_reads (s : Bool) (canonical : Canonical m e) (some : m ≠ 0) :
    ∃ digits significand exp, toDocumentText (.finite s m e canonical) = signed s digits ∧
      Reads s digits significand exp ∧
      (significand = (shortestDigits .toEven m e).1 ∧ exp = (shortestDigits .toEven m e).2 ∧
          (0 ≤ exp → 16 ≤ exp + (Nat.toDigits 10 significand).length - 1) ∨
        0 ≤ (shortestDigits .toEven m e).2 ∧ exp = -1 ∧
          significand = (shortestDigits .toEven m e).1 * 10 ^ ((shortestDigits .toEven m e).2.toNat + 1)) := by
  have shortest := shortest_shortestDigits .toEven canonical some
  have few := shortest.lt canonical some
  have ends := shortest.mod_ten
  have bound := natAbs_shortestDigits_le .toEven canonical some
  rw [toDocumentText, if_neg some]
  generalize shortestDigits .toEven m e = decimal at few ends bound ⊢
  obtain ⟨n, k⟩ := decimal
  dsimp only at few ends bound ⊢
  have length : (Nat.toDigits 10 n).length ≤ 17 := (Nat.length_toDigits_le_iff (by decide) (by decide)).2 few
  by_cases inRange : -5 ≤ k + (Nat.toDigits 10 n).length - 1 ∧ k + (Nat.toDigits 10 n).length - 1 < 16
  · rw [if_pos inRange]
    by_cases nonneg : 0 ≤ k
    · rw [if_pos nonneg]
      exact ⟨_, _, _, rfl, reads_positional_whole s ends nonneg, .inr ⟨nonneg, rfl, rfl⟩⟩
    · rw [if_neg nonneg]
      exact ⟨_, _, _, rfl, reads_positional s ends (not_le.1 nonneg), .inl ⟨rfl, rfl, fun h => absurd h nonneg⟩⟩
  · rw [if_neg inRange]
    have small : (k + (Nat.toDigits 10 n).length - 1).natAbs ≤ maxExponent := by
      rw [maxExponent, Nat.pow_eq]
      omega
    refine ⟨_, _, _, rfl, reads_scientific_form s n rfl small, .inl ⟨rfl, rfl, fun nonneg => ?_⟩⟩
    have visible := Nat.length_toDigits_pos (b := 10) (n := n)
    by_contra short
    exact inRange ⟨by omega, by omega⟩

theorem toRat_of_reads {n significand : Nat} {k exp : Int} (s : Bool)
    (h : significand = n ∧ exp = k ∧ (0 ≤ exp → 16 ≤ exp + (Nat.toDigits 10 significand).length - 1) ∨
      0 ≤ k ∧ exp = -1 ∧ significand = n * 10 ^ (k.toNat + 1)) :
    |Decimal.toRat ⟨s, significand, exp⟩| = n * 10 ^ k := by
  rw [Decimal.abs_toRat]
  rcases h with ⟨rfl, rfl, -⟩ | ⟨nonneg, rfl, rfl⟩
  · rfl
  · have power : (10 : ℚ) ^ k = 10 ^ k.toNat := by
      rw [← zpow_natCast]
      congr 1
      omega
    rw [power]
    push_cast
    rw [pow_succ, zpow_neg_one]
    field_simp

theorem toDocumentText_zero (s : Bool) (canonical : Canonical 0 e) :
    toDocumentText (.finite s 0 e canonical) = signed s ['0', '.', '0'] := by
  rw [toDocumentText, if_pos rfl]

theorem reads_zero (s : Bool) : Reads s ['0', '.', '0'] 0 (-1) :=
  reads_pointed s (isWhole_toDigits 0) (List.cons_ne_nil '0' []) (by simp)

/-- Rightly read, the text of a finite number stands for it. -/
theorem exists_ofText?_toDocumentText {x : Binary64} (finite : x.isFinite = true) :
    ∃ d, Decimal.ofText? x.toDocumentText = some d ∧ d.toBinary64 = x := by
  obtain ⟨s, m, e, canonical, rfl⟩ := exists_eq_finite finite
  by_cases some : m = 0
  · subst some
    obtain rfl : e = -1074 := by
      obtain ⟨-, -, -, full | least⟩ := canonical
      · exact absurd full (by decide)
      · exact least
    rw [toDocumentText_zero, (reads_zero s).rightly]
    exact ⟨_, rfl, rfl⟩
  · obtain ⟨digits, significand, exp, text, reads, form⟩ := exists_reads s canonical some
    have near := (shortest_shortestDigits .toEven canonical some).near
    rw [text, reads.rightly]
    exact ⟨_, rfl, (Decimal.toBinary64_eq_iff some).2 ⟨rfl, toRat_of_reads s form ▸ near⟩⟩

theorem exists_lead {x : Binary64} (finite : x.isFinite = true) :
    ∃ s digits, x.toDocumentText = signed s digits ∧ ∃ c ∈ digits.head?, c.isDigit = true := by
  obtain ⟨s, m, e, canonical, rfl⟩ := exists_eq_finite finite
  by_cases some : m = 0
  · subst some
    exact ⟨s, _, toDocumentText_zero s canonical, (reads_zero s).lead⟩
  · obtain ⟨digits, significand, exp, text, reads, -⟩ := exists_reads s canonical some
    exact ⟨s, digits, text, reads.lead⟩

theorem ReadsBack.isFinite {x : Binary64} (h : x.ReadsBack) : x.isFinite = true := by
  have null : tokens? ['n', 'u', 'l', 'l'] = some [.plain .null] := marks_null.spells.tokens?
  cases x with
  | finite => rfl
  | infinite s => cases null.symm.trans h
  | nan => cases null.symm.trans h

theorem ReadsBack.spells {x : Binary64} (h : x.ReadsBack) : Spells x.toDocumentText [.plain (.real x)] := by
  obtain ⟨s, digits, text, lead⟩ := exists_lead h.isFinite
  unfold ReadsBack at h
  rw [text] at h ⊢
  exact spells_signed lead h

/-! ### Short numbers -/

theorem powerOfTen_exact : ∀ n ≤ 22, (powerOfTen n).isFinite = true ∧ (powerOfTen n).toInt? = some (10 ^ n : Int) := by
  decide +kernel

/-- Up to here a division by a power of ten is one of exact numbers, and so it is rightly rounded. -/
theorem exists_scaled? {significand : Nat} {exp : Int} (few : significand < 2 ^ 53) (places : -22 ≤ exp) (neg : exp < 0) :
    ∃ y, scaled? significand exp = some y ∧ RoundsTo (significand * 10 ^ exp) y := by
  obtain ⟨finite, whole⟩ := powerOfTen_exact exp.natAbs (by omega)
  have divisor := toRat_of_toInt? whole
  have dividend := isInt_ofNat few
  have power : (10 : ℚ) ^ exp = (10 ^ exp.natAbs)⁻¹ := by
    rw [← zpow_natCast, ← zpow_neg]
    congr 1
    omega
  refine ⟨ofNat significand / powerOfTen exp.natAbs, ?_, ?_⟩
  · rw [scaled?, if_pos neg, scaleDown, if_pos (by omega)]
  · push_cast at divisor
    have quotient := roundsTo_div dividend.finite finite (by rw [divisor]; positivity)
    rw [dividend.toRat, divisor, Int.cast_natCast] at quotient
    rwa [power, ← div_eq_mul_inv]

theorem Near.le_add {m : Nat} {e : Int} {p q : ℚ} (hp : Near m e p) (hq : Near m e q) : p ≤ q + 2 ^ e := by
  have unit : (0 : ℚ) < 2 ^ e := by positivity
  have room := mul_le_mul_of_nonneg_right (room_le m e) unit.le
  have above := hp.le.2
  have below := hq.le.1
  linarith

theorem Near.unit_le {m : Nat} {e : Int} {q : ℚ} (h : Near m e q) (canonical : Canonical m e) (small : q ≤ 2 ^ 52) :
    (2 : ℚ) ^ e ≤ 1 := by
  by_contra large
  have up : 0 < e := by
    by_contra down
    exact large (zpow_le_one_of_nonpos₀ (by norm_num) (by omega))
  have full : ((2 ^ 52 : Nat) : ℚ) ≤ m := by
    obtain ⟨-, -, -, full | least⟩ := canonical
    · exact_mod_cast full
    · omega
  have two : (2 : ℚ) ≤ 2 ^ e := by
    calc
      (2 : ℚ) = 2 ^ (1 : Int) := (zpow_one 2).symm
      _ ≤ 2 ^ e := zpow_le_zpow_right₀ (by norm_num) up
  have below := h.le.1
  have room := room_le m e
  push_cast at full
  have size : (2 ^ 52 - 1 / 2 : ℚ) * 2 ≤ (m - Binary64.room m e) * 2 ^ e := by
    apply mul_le_mul _ two (by norm_num)
    · linarith
    · linarith
  linarith

/-- A whole number with its digits in the tenths, or digits of fifteen places, can be divided exactly. -/
theorem few_of_short {n significand : Nat} {k exp : Int} (some : n ≠ 0) (few : n < 10 ^ 15) (size : (n : ℚ) * 10 ^ k ≤ 10 ^ 14 + 1)
    (places : -22 ≤ k)
    (h : significand = n ∧ exp = k ∧ (0 ≤ exp → 16 ≤ exp + (Nat.toDigits 10 significand).length - 1) ∨
      0 ≤ k ∧ exp = -1 ∧ significand = n * 10 ^ (k.toNat + 1)) :
    significand < 2 ^ 53 ∧ -22 ≤ exp ∧ exp < 0 := by
  have whole (nonneg : 0 ≤ k) : n * 10 ^ k.toNat ≤ 10 ^ 14 + 1 := by
    have power : (10 : ℚ) ^ k = 10 ^ k.toNat := by
      rw [← zpow_natCast]
      congr 1
      omega
    rw [power] at size
    exact_mod_cast size
  rcases h with ⟨rfl, rfl, long⟩ | ⟨nonneg, rfl, rfl⟩
  · refine ⟨by omega, places, ?_⟩
    by_contra nonneg
    have nonneg := not_lt.1 nonneg
    have long := long nonneg
    have lead : 10 ^ ((Nat.toDigits 10 significand).length - 1) ≤ significand := by
      by_contra less
      by_cases one : (Nat.toDigits 10 significand).length - 1 = 0
      · rw [one] at less
        omega
      · have := (Nat.length_toDigits_le_iff (b := 10) (by decide) (Nat.pos_of_ne_zero one)).2 (not_le.1 less)
        omega
    have large : 10 ^ 16 ≤ 10 ^ 14 + 1 :=
      calc
        10 ^ 16 ≤ 10 ^ ((Nat.toDigits 10 significand).length - 1 + exp.toNat) :=
          Nat.pow_le_pow_right (by decide) (by omega)
        _ = 10 ^ ((Nat.toDigits 10 significand).length - 1) * 10 ^ exp.toNat := pow_add _ _ _
        _ ≤ significand * 10 ^ exp.toNat := Nat.mul_le_mul_right _ lead
        _ ≤ 10 ^ 14 + 1 := whole nonneg
    exact absurd large (by decide)
  · have := whole nonneg
    rw [pow_succ, ← mul_assoc]
    omega

theorem readsBack_zero {e : Int} (s : Bool) (canonical : Canonical 0 e) : ReadsBack (.finite s 0 e canonical) := by
  obtain rfl : e = -1074 := by
    obtain ⟨-, -, -, full | least⟩ := canonical
    · exact absurd full (by decide)
    · exact least
  have scaled : scaled? 0 (-1) = some (zero false) := by decide +kernel
  unfold ReadsBack
  rw [toDocumentText_zero, tokens?_signed (reads_zero s).lead, (reads_zero s).number (Nat.zero_le _), scaledToken, scaled]
  cases s <;> rfl

/-- A number with at most fifteen digits, of which one to twenty-two stand after the point, reads back. -/
theorem readsBack_of_short {d : Decimal} (few : d.digits < 10 ^ 15) (places : -22 ≤ d.exp) (neg : d.exp < 0) :
    d.toBinary64.ReadsBack := by
  have tenth : (10 : ℚ) ^ d.exp ≤ 1 / 10 := by
    calc
      (10 : ℚ) ^ d.exp ≤ 10 ^ (-1 : Int) := zpow_le_zpow_right₀ (by norm_num) (by omega)
      _ = 1 / 10 := by norm_num
  have value : (d.digits : ℚ) * 10 ^ d.exp ≤ 10 ^ 14 := by
    have digits : (d.digits : ℚ) ≤ 10 ^ 15 := by exact_mod_cast few.le
    calc
      (d.digits : ℚ) * 10 ^ d.exp ≤ 10 ^ 15 * (1 / 10) := by gcongr
      _ = 10 ^ 14 := by norm_num
  have finite : d.toBinary64.isFinite = true := by
    refine (Decimal.roundsTo_toBinary64 d).isFinite ?_
    rw [Decimal.abs_toRat]
    calc
      (d.digits : ℚ) * 10 ^ d.exp ≤ 2 ^ (47 : Int) := value.trans (by norm_num)
      _ ≤ 2 ^ (1022 : Int) := zpow_le_zpow_right₀ (by norm_num) (by norm_num)
  obtain ⟨s, m, e, canonical, number⟩ := exists_eq_finite finite
  rw [number]
  by_cases some : m = 0
  · subst some
    exact readsBack_zero s canonical
  · obtain ⟨-, near⟩ := (Decimal.toBinary64_eq_iff some).1 number
    rw [Decimal.abs_toRat] at near
    have shortest := shortest_shortestDigits .toEven canonical some
    obtain ⟨digits, significand, exp, text, reads, form⟩ := exists_reads s canonical some
    have size : ((shortestDigits .toEven m e).1 : ℚ) * 10 ^ (shortestDigits .toEven m e).2 ≤ 10 ^ 14 + 1 := by
      have unit := near.unit_le canonical (value.trans (by norm_num))
      have close := shortest.near.le_add near
      linarith
    obtain ⟨exact, low, up⟩ := few_of_short (shortest.near.ne_zero some) (shortest.fewest some near few) size
      (places.trans (shortest.coarsest _ _ near)) form
    obtain ⟨y, scaled, rounds⟩ := exists_scaled? exact low up
    have shown := toRat_of_reads false form
    rw [Decimal.abs_toRat] at shown
    have nonneg : (0 : ℚ) ≤ significand * 10 ^ exp := by positivity
    obtain rfl : y = .finite false m e canonical := by
      refine RoundsTo.eq ?_ rounds rfl (by simpa [isZero] using some)
      refine (roundsTo_finite_iff some).2 ⟨decide_eq_false (not_lt.2 nonneg), ?_⟩
      rw [abs_of_nonneg nonneg]
      exact shown ▸ shortest.near
    have fits : significand ≤ maxSignificand := by
      rw [maxSignificand, Nat.pow_eq]
      omega
    unfold ReadsBack
    rw [text, tokens?_signed reads.lead, reads.number fits, scaledToken, scaled]
    cases s <;> rfl

/-- With seventeen digits the dividend is rounded, and then the quotient. -/
example : ¬ (Decimal.toBinary64 ⟨false, 31245270191439438, -15⟩).ReadsBack := by decide +kernel

end Binary64

end SettingsSweep

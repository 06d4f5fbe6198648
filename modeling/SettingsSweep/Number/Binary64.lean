/-!
Binary64 numbers with exact arithmetic: every operation computes the true result as a ratio of
integers and rounds it once, to the nearest number and to an even significand on a tie.
-/

set_option autoImplicit false

namespace SettingsSweep

/-- The significand is below `2^53`, and it is at least `2^52` unless the exponent is the least one. -/
def Canonical (mant : Nat) (exp : Int) : Prop :=
  mant < Nat.pow 2 53 ∧ -1074 ≤ exp ∧ exp ≤ 971 ∧ (Nat.pow 2 52 ≤ mant ∨ exp = -1074)

instance (mant : Nat) (exp : Int) : Decidable (Canonical mant exp) :=
  inferInstanceAs (Decidable (_ ∧ _ ∧ _ ∧ _))

/-- A finite number stands for `± mant · 2^exp`; each value but zero has one form. -/
inductive Binary64
  | finite (negative : Bool) (mant : Nat) (exp : Int) (canonical : Canonical mant exp)
  | infinite (negative : Bool)
  | nan
  deriving DecidableEq

namespace Binary64

def zero (negative : Bool) : Binary64 :=
  .finite negative 0 (-1074) (by decide)

instance : Inhabited Binary64 := ⟨zero false⟩

/-- A significand and an exponent that do not fit stand for a number beyond the largest one. -/
def ofParts (negative : Bool) (mant : Nat) (exp : Int) : Binary64 :=
  if h : Canonical mant exp then .finite negative mant exp h else .infinite negative

/-- The ratio `num / den` measured in units of `2^exp`, as a ratio again. -/
def inUnits (num den : Nat) (exp : Int) : Nat × Nat :=
  if exp < 0 then (num * Nat.pow 2 exp.natAbs, den) else (num, den * Nat.pow 2 exp.natAbs)

/-- The exponent of the unit in which a positive ratio has 53 bits, or the least exponent. -/
def unitExponent (num den : Nat) : Int :=
  let low : Int := (num.log2 : Int) - (den.log2 : Int) - 53
  let (n, d) := inUnits num den low
  max (-1074) (if n < d * Nat.pow 2 53 then low else low + 1)

/-- The nearest integer to `num / den`, the even one of two. -/
def roundHalfEven (num den : Nat) : Nat :=
  let q := num / den
  let r := num % den
  if 2 * r > den ∨ (2 * r = den ∧ q % 2 = 1) then q + 1 else q

/-- The number nearest to `± num / den`, for a positive `den`. -/
def ofRatio (negative : Bool) (num den : Nat) : Binary64 :=
  if num = 0 then zero negative
  else
    let exp := unitExponent num den
    let (n, d) := inUnits num den exp
    let mant := roundHalfEven n d
    if mant = Nat.pow 2 53 then ofParts negative (Nat.pow 2 52) (exp + 1) else ofParts negative mant exp

def ofScaled (negative : Bool) (num : Nat) (exp : Int) : Binary64 :=
  if exp < 0 then ofRatio negative num (Nat.pow 2 exp.natAbs)
  else ofRatio negative (num * Nat.pow 2 exp.natAbs) 1

def ofNat (n : Nat) : Binary64 := ofRatio false n 1

def ofInt (i : Int) : Binary64 := ofRatio (i < 0) i.natAbs 1

def isFinite : Binary64 → Bool
  | .finite .. => true
  | _ => false

def isZero : Binary64 → Bool
  | .finite _ mant _ _ => mant == 0
  | _ => false

def neg : Binary64 → Binary64
  | .finite s m e h => .finite (!s) m e h
  | .infinite s => .infinite (!s)
  | .nan => .nan

/-- A significand with its sign, in units of `2^unit` for a `unit` not above `exp`. -/
def signedUnits (negative : Bool) (mant : Nat) (exp unit : Int) : Int :=
  let n : Int := (mant * Nat.pow 2 (exp - unit).toNat : Nat)
  if negative then -n else n

/-- A sum that is zero is negative only if both terms are. -/
def add : Binary64 → Binary64 → Binary64
  | .finite s m e _, .finite t n f _ =>
    let unit := min e f
    let sum := signedUnits s m e unit + signedUnits t n f unit
    if sum = 0 then zero (s && t) else ofScaled (sum < 0) sum.natAbs unit
  | .nan, _ | _, .nan => .nan
  | .infinite s, .infinite t => if s = t then .infinite s else .nan
  | .infinite s, .finite .. | .finite .., .infinite s => .infinite s

def sub (x y : Binary64) : Binary64 := x.add y.neg

def mul : Binary64 → Binary64 → Binary64
  | .finite s m e _, .finite t n f _ => ofScaled (s != t) (m * n) (e + f)
  | .nan, _ | _, .nan => .nan
  | .infinite s, .infinite t => .infinite (s != t)
  | .infinite s, .finite t n _ _ | .finite t n _ _, .infinite s =>
    if n = 0 then .nan else .infinite (s != t)

def div : Binary64 → Binary64 → Binary64
  | .finite s m e _, .finite t n f _ =>
    if n = 0 then (if m = 0 then .nan else .infinite (s != t))
    else
      let (num, den) := inUnits m n (f - e)
      ofRatio (s != t) num den
  | .nan, _ | _, .nan => .nan
  | .infinite _, .infinite _ => .nan
  | .infinite s, .finite t _ _ _ => .infinite (s != t)
  | .finite s _ _ _, .infinite t => zero (s != t)

instance : Neg Binary64 := ⟨neg⟩
instance : Add Binary64 := ⟨add⟩
instance : Sub Binary64 := ⟨sub⟩
instance : Mul Binary64 := ⟨mul⟩
instance : Div Binary64 := ⟨div⟩

/-- The order of two numbers, if neither is NaN. The two zeros are equal. -/
def compare? : Binary64 → Binary64 → Option Ordering
  | .finite s m e _, .finite t n f _ =>
    let unit := min e f
    some (compare (signedUnits s m e unit) (signedUnits t n f unit))
  | .nan, _ | _, .nan => none
  | .infinite s, .infinite t =>
    some (if s = t then .eq else if s then .lt else .gt)
  | .infinite s, .finite .. => some (if s then .lt else .gt)
  | .finite .., .infinite t => some (if t then .gt else .lt)

/-- Numeric equality: NaN equals nothing, and `-0` equals `0`. -/
def same (x y : Binary64) : Bool := x.compare? y == some .eq

def le (x y : Binary64) : Bool :=
  match x.compare? y with
  | some .lt | some .eq => true
  | _ => false

/-- The whole part of a finite magnitude and whether anything is left over it. -/
def wholePart (mant : Nat) (exp : Int) : Nat × Nat × Nat :=
  if exp < 0 then (mant / Nat.pow 2 exp.natAbs, mant % Nat.pow 2 exp.natAbs, Nat.pow 2 exp.natAbs)
  else (mant * Nat.pow 2 exp.natAbs, 0, 1)

def floor : Binary64 → Binary64
  | .finite s m e _ =>
    let (whole, rest, _) := wholePart m e
    ofRatio s (if s ∧ rest ≠ 0 then whole + 1 else whole) 1
  | x => x

/-- The nearest integer; a half goes away from zero. -/
def round : Binary64 → Binary64
  | .finite s m e _ =>
    let (whole, rest, one) := wholePart m e
    ofRatio s (if 2 * rest ≥ one then whole + 1 else whole) 1
  | x => x

/-- `1` or `-1` by the sign, which zeros have too. -/
def signum : Binary64 → Binary64
  | .finite s .. | .infinite s => if s then ofInt (-1) else ofInt 1
  | .nan => .nan

def toInt? : Binary64 → Option Int
  | .finite s m e _ =>
    let (whole, rest, _) := wholePart m e
    if rest = 0 then some (if s then -(whole : Int) else whole) else none
  | _ => none

/-- The integer next to a number in the direction of zero, for a number that is not negative. -/
def truncToNat : Binary64 → Nat
  | .finite false m e _ => (wholePart m e).1
  | _ => 0

end Binary64

end SettingsSweep

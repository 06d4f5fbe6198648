import SettingsSweep.Number.Binary64

/-!
Decimal numerals: reading one as the nearest binary64 number, and the fewest digits that read back
as a given number.
-/

set_option autoImplicit false

namespace SettingsSweep

structure Decimal where
  negative : Bool
  digits : Nat
  exp : Int
  deriving DecidableEq, Repr

namespace Decimal

/-- The nearest binary64 number. A positive exponent above 400 leaves the range of finite numbers,
    and a value below `10^-400` rounds to zero; both are decided without computing the power. -/
def toBinary64 (d : Decimal) : Binary64 :=
  if d.digits = 0 then .zero d.negative
  else if 400 < d.exp then .infinite d.negative
  else if d.exp < -(d.digits.log2 + 400 : Int) then .zero d.negative
  else if d.exp < 0 then .ofRatio d.negative d.digits (Nat.pow 10 d.exp.natAbs)
  else .ofRatio d.negative (d.digits * Nat.pow 10 d.exp.natAbs) 1

/-- Splits off a leading sign; `true` is minus. -/
def splitSign : List Char → Bool × List Char
  | '-' :: rest => (true, rest)
  | '+' :: rest => (false, rest)
  | rest => (false, rest)

def natOfDigits (digits : List Char) : Nat := Nat.ofDigitChars 10 digits 0

/-- The exponent that ends a numeral: nothing, or an `e` with an integer. -/
def exponent? : List Char → Option Int
  | [] => some 0
  | c :: rest =>
    if c = 'e' ∨ c = 'E' then
      let (negative, digits) := splitSign rest
      if digits ≠ [] ∧ digits.all Char.isDigit then
        let n : Int := natOfDigits digits
        some (if negative then -n else n)
      else none
    else none

/-- A numeral without its sign: digits with at most one point among them, then an exponent. -/
def unsigned? (negative : Bool) (text : List Char) : Option Decimal :=
  let whole := text.takeWhile Char.isDigit
  let (fraction, rest) :=
    match text.dropWhile Char.isDigit with
    | '.' :: rest => (rest.takeWhile Char.isDigit, rest.dropWhile Char.isDigit)
    | rest => ([], rest)
  if whole = [] ∧ fraction = [] then none
  else (exponent? rest).map fun exp =>
    ⟨negative, natOfDigits (whole ++ fraction), exp - fraction.length⟩

def ofText? (text : List Char) : Option Decimal :=
  let (negative, rest) := splitSign text
  unsigned? negative rest

end Decimal

namespace Binary64

def named? (negative : Bool) (text : List Char) : Option Binary64 :=
  let lowered := String.ofList (text.map Char.toLower)
  if lowered = "inf" ∨ lowered = "infinity" then some (.infinite negative)
  else if lowered = "nan" then some .nan
  else none

def ofText? (text : List Char) : Option Binary64 :=
  match Decimal.ofText? text with
  | some d => some d.toBinary64
  | none =>
    let (negative, rest) := Decimal.splitSign text
    named? negative rest

inductive Tie
  | toEven
  | up

/-- The positive reals that round to `mant · 2^exp`, over one denominator: the lowest, the number
    itself, the highest, and whether the two ends belong to them. -/
structure Interval where
  low : Nat
  mid : Nat
  high : Nat
  den : Nat
  closed : Bool

def interval (mant : Nat) (exp : Int) : Interval :=
  let below := if mant = Nat.pow 2 52 ∧ -1074 < exp then 1 else 2
  let unit := exp - 2
  let scale := Nat.pow 2 unit.natAbs
  if unit < 0 then ⟨4 * mant - below, 4 * mant, 4 * mant + 2, scale, mant % 2 = 0⟩
  else ⟨(4 * mant - below) * scale, 4 * mant * scale, (4 * mant + 2) * scale, 1, mant % 2 = 0⟩

def Interval.inTens (i : Interval) (exp : Int) : Interval :=
  let scale := Nat.pow 10 exp.natAbs
  if exp < 0 then { i with low := i.low * scale, mid := i.mid * scale, high := i.high * scale }
  else { i with den := i.den * scale }

def Interval.contains (i : Interval) (n : Nat) : Bool :=
  let x := n * i.den
  if i.closed then i.low ≤ x && x ≤ i.high else i.low < x && x < i.high

/-- The integer in the interval that is nearest to its number. Only the two next to the number need
    to be tried. -/
def Interval.nearest? (i : Interval) (tie : Tie) : Option Nat :=
  let down := i.mid / i.den
  let rest := i.mid % i.den
  let up := down + 1
  match i.contains down, i.contains up with
  | false, false => none
  | true, false => some down
  | false, true => some up
  | true, true =>
    if 2 * rest < i.den then some down
    else if i.den < 2 * rest then some up
    else match tie with
      | .up => some up
      | .toEven => some (if down % 2 = 0 then down else up)

/-- No power of ten above `10^topExponent` is in reach of `mant · 2^exp`. -/
def topExponent (mant : Nat) (exp : Int) : Int :=
  (mant.log2 + exp + 2) * 30103 / 100000 + 1

/-- The decimal with the fewest digits that reads back as a positive number, as digits and a power of
    ten: the coarsest decimal grid with a point in the interval gives it. -/
def shortestDigits (tie : Tie) (mant : Nat) (exp : Int) : Nat × Int :=
  let i := interval mant exp
  let top := topExponent mant exp
  let found := (List.range 24).findSome? fun (k : Nat) =>
    ((i.inTens (top - k)).nearest? tie).map fun n => (n, top - k)
  found.getD (0, 0)

/-- Decimal digits with a point `-exp` places from the right, and no point without a fraction. -/
def positional (digits : Nat) (exp : Int) : List Char :=
  let ds := Nat.toDigits 10 digits
  if 0 ≤ exp then ds ++ List.replicate exp.natAbs '0'
  else
    let places := exp.natAbs
    let padded := List.replicate (places + 1 - ds.length) '0' ++ ds
    padded.take (padded.length - places) ++ '.' :: padded.drop (padded.length - places)

def signed (negative : Bool) (text : List Char) : List Char :=
  if negative then '-' :: text else text

/-- The plain text of a number: all digits, never an exponent. -/
def toPlain : Binary64 → List Char
  | .finite s m e _ =>
    if m = 0 then signed s ['0']
    else
      let (digits, exp) := shortestDigits .up m e
      signed s (positional digits exp)
  | .infinite s => signed s ['i', 'n', 'f']
  | .nan => ['N', 'a', 'N']

def scientific (digits : List Char) (exp : Int) : List Char :=
  let mantissa := match digits with
    | [] => []
    | [d] => [d]
    | d :: rest => d :: '.' :: rest
  mantissa ++ 'e' :: (if exp < 0 then '-' else '+') :: Nat.toDigits 10 exp.natAbs

/-- The text of a number in a document. It always shows a fraction or an exponent, and it is
    positional if the first digit stands for `10^-5` to `10^15`. -/
def toDocumentText : Binary64 → List Char
  | .finite s m e _ =>
    if m = 0 then signed s ['0', '.', '0']
    else
      let (digits, exp) := shortestDigits .toEven m e
      let ds := Nat.toDigits 10 digits
      let first := exp + ds.length - 1
      if -5 ≤ first ∧ first < 16 then
        let text := positional digits exp
        signed s (if 0 ≤ exp then text ++ ['.', '0'] else text)
      else signed s (scientific ds first)
  | _ => ['n', 'u', 'l', 'l']

end Binary64

end SettingsSweep

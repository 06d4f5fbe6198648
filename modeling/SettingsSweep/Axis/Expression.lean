import SettingsSweep.Axis.RangeForm
import SettingsSweep.Scalar
import SettingsSweep.Text.Lines
import SettingsSweep.Warning

/-!
The values that a row of an axis stands for: a range, a list with commas, or one token. A row never
fails; a range that makes no sense has no values and a warning.
-/

set_option autoImplicit false

namespace SettingsSweep

structure Expansion where
  values : List Scalar
  problem : Option RangeProblem := none

namespace Expansion

def maxValues : Nat := 100000

def refuse (problem : RangeProblem) : Expansion := ⟨[], some problem⟩

def tooMany : Expansion := refuse (.tooManyValues maxValues)

def tenBillion : Binary64 := .ofNat (Nat.pow 10 10)

/-- What a step may miss the end of its range by, in steps. -/
def tolerance : Binary64 := Decimal.toBinary64 ⟨false, 1, -9⟩

/-- The number to ten decimal places, and never `-0`. -/
def tenPlaces (x : Binary64) : Binary64 :=
  let rounded := (x * tenBillion).round / tenBillion
  if rounded.isZero then .zero false else rounded

def point (x : Binary64) : Scalar := .number (tenPlaces x)

/-- `count` numbers from `start` on. Each is computed from its index, so errors do not add up. -/
def progression (start step : Binary64) (count : Nat) : List Scalar :=
  (List.range count).map fun i => point (start + Binary64.ofNat i * step)

def stepped (start stop step : Binary64) : Expansion :=
  if step.isZero then ⟨[point start], some .zeroStep⟩
  else if start.same stop then ⟨[point start], none⟩
  else if !(stop - start).signum.same step.signum then refuse .awayFromEnd
  else
    let steps := ((stop - start) / step + tolerance).floor
    if !steps.isFinite || (Binary64.ofNat maxValues).le steps then tooMany
    else ⟨progression start step (steps.truncToNat + 1), none⟩

def counted (start stop : Binary64) (count : Nat) : Expansion :=
  if count = 0 then ⟨[], none⟩
  else if count = 1 then ⟨[point start], none⟩
  else if maxValues < count then tooMany
  else ⟨progression start ((stop - start) / Binary64.ofNat (count - 1)) count, none⟩

def integers (start stop : Int) : Expansion :=
  if stop < start then refuse .backwards
  else if (maxValues : Int) ≤ stop - start then tooMany
  else
    let count := (stop - start).toNat + 1
    ⟨(List.range count).map fun (i : Nat) => .number (.ofInt (start + i)), none⟩

def ofForm : RangeForm → Expansion
  | .stepped start stop down step =>
    stepped start.value stop.value (if down then -step.value else step.value)
  | .badStep => refuse .stepNotNumber
  | .counted start stop count =>
    match count.count? with
    | some n => counted start.value stop.value n
    | none => tooMany
  | .integers start stop =>
    match start.int64?, stop.int64? with
    | some a, some b => integers a b
    | _, _ => tooMany
  | .decimals => refuse .decimalBounds

def listTokens (text : List Char) : List String :=
  ((Text.splitOn ',' text).map Text.trimChars).filter (· ≠ []) |>.map String.ofList

end Expansion

/-- The values of a row, and a warning with its trimmed text. -/
structure Row where
  values : List Scalar
  warning : Option RangeWarning

def Row.ofText (expression : String) : Row :=
  let trimmed := Text.trimChars expression.toList
  if trimmed = [] then ⟨[], none⟩
  else match RangeForm.ofText? trimmed with
    | some form =>
      let expansion := Expansion.ofForm form
      ⟨expansion.values, expansion.problem.map fun p => ⟨p, String.ofList trimmed⟩⟩
    | none =>
      if ',' ∈ trimmed then ⟨(Expansion.listTokens trimmed).map Scalar.classify, none⟩
      else ⟨[Scalar.classify (String.ofList trimmed)], none⟩

end SettingsSweep

import SettingsSweep.Axis.Basic

/-!
Problems that do not stop a sweep.
-/

set_option autoImplicit false

namespace SettingsSweep

inductive RangeProblem
  | zeroStep
  | awayFromEnd
  | stepNotNumber
  | backwards
  | decimalBounds
  | tooManyValues (limit : Nat)
  deriving DecidableEq

structure RangeWarning where
  problem : RangeProblem
  expression : String
  deriving DecidableEq

def RangeWarning.message (warning : RangeWarning) : String :=
  let expr := "'" ++ warning.expression ++ "'"
  match warning.problem with
  | .zeroStep => "step of zero in " ++ expr ++ ", using the start value only"
  | .awayFromEnd => "step in " ++ expr ++ " moves away from the end value"
  | .stepNotNumber => "step in " ++ expr ++ " is not a number"
  | .backwards =>
    "range " ++ expr ++ " runs backwards; integer ranges must go from low to high"
  | .decimalBounds =>
    "range " ++ expr ++ " has decimal bounds; add a step '(+0.1)' or a count '[5]'"
  | .tooManyValues limit =>
    "range " ++ expr ++ " expands to more than " ++ toString limit ++ " values"

inductive Warning
  | range (axis : AxisName) (warning : RangeWarning)
  | unknownChoice (axis : AxisName) (field choice : String)
  | promptOverride (axis : AxisName) (value : String)
  | replacedIntermediate (field segment : String)
  | duplicateFilename (filename : String)
  deriving DecidableEq

namespace Warning

def message : Warning → String
  | .range axis warning => axis.title ++ ": " ++ warning.message
  | .unknownChoice axis field choice =>
    axis.title ++ ": '" ++ choice ++ "' is not a known option for '" ++ field ++ "'"
  | .promptOverride axis value =>
    axis.title ++ ": prompt override is not valid JSON, using it as the frame 0 text: " ++ value
  | .replacedIntermediate field segment =>
    "non-object value at '" ++ segment ++ "' replaced while setting '" ++ field ++ "'"
  | .duplicateFilename filename => "duplicate filename: " ++ filename

/-- Adds the warnings that are not there yet, in their order. -/
def addNew (warnings more : List Warning) : List Warning :=
  more.foldl (fun ws w => if w ∈ ws then ws else ws ++ [w]) warnings

end Warning

end SettingsSweep

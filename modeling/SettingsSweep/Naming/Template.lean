import SettingsSweep.Axis.Basic

/-!
File name templates: text with placeholders in curly brackets. One loop lists the placeholders and another
replaces them.
-/

set_option autoImplicit false

namespace SettingsSweep

inductive Variable
  | timestring
  | filename
  | seed
  | seedBehavior
  | width
  | height
  | param (axis : AxisName)
  | value (axis : AxisName)
  | steps
  | cfgScale
  | sampler
  | strength
  | maxFrames
  deriving DecidableEq

namespace Variable

def all : List (String × Variable) :=
  [("timestring", .timestring), ("filename", .filename), ("seed", .seed),
    ("seed_behavior", .seedBehavior), ("w", .width), ("h", .height), ("x_param", .param .x),
    ("x_value", .value .x), ("y_param", .param .y), ("y_value", .value .y),
    ("z_param", .param .z), ("z_value", .value .z), ("steps", .steps), ("cfg_scale", .cfgScale),
    ("sampler", .sampler), ("strength", .strength), ("max_frames", .maxFrames)]

def ofName? (name : String) : Option Variable := Dict.find? name all

end Variable

namespace Template

def isNameStart (c : Char) : Bool := c.isAlpha || c == '_'

def isNameChar (c : Char) : Bool := c.isAlphanum || c == '_'

def nameAt? (text : List Char) : Option (List Char) :=
  let name := text.takeWhile isNameChar
  match name.head?, text.dropWhile isNameChar with
  | some c, '\x7d' :: _ => if isNameStart c then some name else none
  | _, _ => none

def knownNames : List String :=
  ["timestring", "filename", "seed", "seed_behavior", "w", "h", "x_param", "x_value", "y_param",
    "y_value", "z_param", "z_value", "steps", "cfg_scale", "sampler", "strength", "max_frames"]

/-- The names of the placeholders in a text after its first `skip` characters, which belong to one. -/
def scanFrom : Nat → List Char → List String
  | _, [] => []
  | skip + 1, _ :: cs => scanFrom skip cs
  | 0, c :: cs =>
    if c = '\x7b' then
      match nameAt? cs with
      | some name => String.ofList name :: scanFrom (name.length + 1) cs
      | none => scanFrom 0 cs
    else scanFrom 0 cs

def scan (template : String) : List String := scanFrom 0 template.toList

def distinctNames (names : List String) : List String :=
  (names.foldl (fun seen name => if name ∈ seen then seen else name :: seen) []).reverse

def known (template : String) : List String :=
  distinctNames ((scan template).filter fun name => name ∈ knownNames)

def unknown (template : String) : List String :=
  distinctNames ((scan template).filter fun name => name ∉ knownNames)

/-- Puts texts in place of the placeholders that have one, after the first `skip` characters. What is put
    in is not looked at again. -/
def substituteFrom (text? : String → Option String) : Nat → List Char → List Char
  | _, [] => []
  | skip + 1, _ :: cs => substituteFrom text? skip cs
  | 0, c :: cs =>
    if c = '\x7b' then
      match nameAt? cs with
      | some name =>
        let rest := substituteFrom text? (name.length + 1) cs
        match text? (String.ofList name) with
        | some text => text.toList ++ rest
        | none => c :: (name ++ '\x7d' :: rest)
      | none => c :: substituteFrom text? 0 cs
    else c :: substituteFrom text? 0 cs

def fill (template : String) (values : Variable → String) : String :=
  String.ofList (substituteFrom (fun name => (Variable.ofName? name).map values) 0 template.toList)

def suggest (x y z : Bool) : String :=
  let part (active : Bool) (letter : String) : String :=
    if active then "_\x7b" ++ letter ++ "_param\x7d-\x7b" ++ letter ++ "_value\x7d" else ""
  "\x7btimestring\x7d_\x7bfilename\x7d" ++ part x "x" ++ part y "y" ++ part z "z" ++
    "_Seed-\x7bseed\x7d_CFG-\x7bcfg_scale\x7d"

end Template

end SettingsSweep

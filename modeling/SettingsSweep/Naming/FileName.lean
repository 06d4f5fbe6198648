import SettingsSweep.Axis.Resolve
import SettingsSweep.Naming.Options
import SettingsSweep.Naming.Template
import SettingsSweep.Prompts
import SettingsSweep.Time

/-!
File names: a template filled with the settings of a document and the values of the axes.
-/

set_option autoImplicit false

namespace SettingsSweep

structure AxisValue where
  field : String
  value : Scalar
  deriving DecidableEq

namespace FileName

/-- The characters that a file name keeps. Blanks become underscores, all others are dropped. -/
def sanitizeChar (c : Char) : Option Char :=
  if Text.isBlank c then some '_'
  else if c.isAlphanum || c == '_' || c == '.' || c == '-' then some c
  else none

def sanitize (text : String) : String := String.ofList (text.toList.filterMap sanitizeChar)

/-- A setting that is absent or null reads `none`. -/
def sanitizeSetting : Option Json → String
  | none | some .null => "none"
  | some (.str s) => sanitize s
  | some value => sanitize value.compact

/-- The strength, or its schedule where there is none. -/
def strength? (settings : Document) : Option Json :=
  match settings.find? "strength" with
  | none | some .null => settings.find? "strength_schedule"
  | some value => some value

structure Context where
  stamp : String
  param : AxisName → String
  value : AxisName → String

def variableText (context : Context) (settings : Document) (options : NamingOptions) :
    Variable → String
  | .timestring => context.stamp
  | .filename => sanitize options.filename
  | .seed => sanitizeSetting (settings.find? "seed")
  | .seedBehavior => sanitizeSetting (settings.find? "seed_behavior")
  | .width => sanitizeSetting (settings.find? "W")
  | .height => sanitizeSetting (settings.find? "H")
  | .param axis => context.param axis
  | .value axis => context.value axis
  | .steps => sanitizeSetting (settings.find? "steps")
  | .cfgScale => sanitizeSetting (settings.find? "cfg_scale")
  | .sampler => sanitizeSetting (settings.find? "sampler")
  | .strength => sanitizeSetting (strength? settings)
  | .maxFrames => sanitizeSetting (settings.find? "max_frames")

def ofTemplate (template : String) (context : Context) (settings : Document)
    (options : NamingOptions) : String :=
  Template.fill template (variableText context settings options) ++ options.extension

/-- The context of a combination: axes without a value read `none`. -/
def combinationContext (now : Instant) (values : AxisName → Option AxisValue) : Context where
  stamp := now.stamp
  param axis := match values axis with
    | some v => sanitize (shortName v.field)
    | none => "none"
  value axis := match values axis with
    | some v => sanitize v.value.display
    | none => "none"

/-- The context of a preview: the first values, and markers where there is none yet. -/
def previewContext (now : Instant) (axes : List ResolvedAxis) : Context where
  stamp := now.stamp
  param axis := match axes.find? fun a => a.name = axis ∧ a.field ≠ "" with
    | some a => sanitize (shortName a.field)
    | none => if axis = .z then "none" else "[" ++ axis.letter ++ "_param]"
  value axis := match axes.find? fun a => a.name = axis ∧ a.field ≠ "" with
    | some a => match a.values.head? with
      | some v => sanitize v.display
      | none => "[" ++ axis.letter ++ "_val]"
    | none => if axis = .z then "none" else "[" ++ axis.letter ++ "_val]"

def preview (template : String) (axes : List ResolvedAxis) (settings : Document)
    (options : NamingOptions) (now : Instant) : String :=
  ofTemplate template (previewContext now axes) settings options

end FileName

end SettingsSweep

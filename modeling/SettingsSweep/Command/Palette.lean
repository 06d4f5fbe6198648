import SettingsSweep.Config.Environment

/-!
Colours in output for people.
-/

set_option autoImplicit false

namespace SettingsSweep.Command

/-- Whether colours are shown. The environment can forbid them, and can ask for them where the output goes
    to no terminal. -/
def showsColor (environment : Environment) (terminal : Bool) : Bool :=
  if environment.has "NO_COLOR" then false
  else if environment.find? "CLICOLOR" = some "0" then false
  else if environment.find? "TERM" = some "dumb" then false
  else environment.has "CLICOLOR_FORCE" || terminal

structure Palette where
  colored : Bool

namespace Palette

def paint (palette : Palette) (red green blue : Nat) (text : String) : String :=
  if palette.colored then s!"\x1b[38;2;{red};{green};{blue}m{text}\x1b[39m" else text

def pass (palette : Palette) : String → String := palette.paint 0xc2 0xd9 0x4c

def warn (palette : Palette) : String → String := palette.paint 0xff 0xb4 0x54

def fail (palette : Palette) : String → String := palette.paint 0xf0 0x71 0x78

def muted (palette : Palette) : String → String := palette.paint 0x6c 0x76 0x80

def accent (palette : Palette) : String → String := palette.paint 0x59 0xc2 0xff

def bold (palette : Palette) (text : String) : String :=
  if palette.colored then "\x1b[1m" ++ text ++ "\x1b[0m" else text

def passIcon (palette : Palette) : String := palette.pass "\u2713"

def warnIcon (palette : Palette) : String := palette.warn "\u26A0"

end Palette

end SettingsSweep.Command

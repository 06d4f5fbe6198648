import SettingsSweep.Naming.Options
import SettingsSweep.Dict

/-!
The file names given out in a run. Under the suffix policy no name is given out twice.
-/

set_option autoImplicit false

namespace SettingsSweep

/-- Every name asked for so far, and every name given out. -/
structure NameRegistry where
  asked : List String := []
  taken : List String := []

structure Claim where
  name : String
  duplicate : Bool
  deriving DecidableEq

namespace NameRegistry

/-- A name without its extension, and the extension if it has it. -/
def splitExtension (extension name : String) : String × String :=
  if extension ≠ "" ∧ extension.toList.isSuffixOf name.toList then
    (String.ofList (name.toList.take (name.length - extension.length)), extension)
  else (name, "")

def candidate (stem extension : String) (n : Nat) : String :=
  stem ++ "_" ++ toString n ++ extension

/-- The first number from `n` on with which a name is free. A number whose name is taken uses up that
    name, so the search ends. -/
def freeNumber (name : Nat → String) (taken : List String) (n : Nat) : Nat :=
  if h : name n ∈ taken then freeNumber name (taken.erase (name n)) (n + 1) else n
termination_by taken.length
decreasing_by
  rw [List.length_erase_of_mem h]
  exact Nat.sub_lt (List.length_pos_of_mem h) Nat.one_pos

def nextFree (taken : List String) (extension name : String) (start : Nat) : String :=
  let (stem, ext) := splitExtension extension name
  candidate stem ext (freeNumber (candidate stem ext) taken start)

/-- Gives out a name. The first to ask for a free name gets it; what others get depends on the
    policy. -/
def claim (registry : NameRegistry) (options : NamingOptions) (name : String) :
    NameRegistry × Claim :=
  let seen := registry.asked.count name + 1
  let asked := name :: registry.asked
  if seen = 1 ∧ name ∉ registry.taken then
    (⟨asked, name :: registry.taken⟩, ⟨name, false⟩)
  else
    let given := match options.onDuplicate with
      | .warn => name
      | .suffix => nextFree registry.taken options.extension name (max seen 2)
    (⟨asked, given :: registry.taken⟩, ⟨given, true⟩)

end NameRegistry

end SettingsSweep

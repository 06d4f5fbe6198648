import SettingsSweep.Proofs.Json.Object
import SettingsSweep.Proofs.Sweep.Document
import SettingsSweep.Proofs.Sweep.Warnings

/-!
The prompts of an artifact, told from the initial prompts and the recorded values of the prompt axes. The last axis
that overrides decides on the frames, and the values of the axes after it are added to their texts.
-/

set_option autoImplicit false

namespace SettingsSweep

namespace Prompts

def ofOverride (text : String) : Prompts :=
  match Json.ofText text.toList with
  | .ok (.obj members) => members.map fun (frame, value) => (frame, frameText value)
  | _ => single text

example : ofOverride "\x7b\"7\": \"a\", \"9\": [2]\x7d" = [("7", "a"), ("9", "[2]")] := by decide +kernel

def extended (prompts : Prompts) (added : List String) : Prompts :=
  prompts.map fun (frame, text) => (frame, text ++ String.join (added.map fun s => ", " ++ s))

theorem ofText?_eq_none {text : String}
    (h : ∀ members, Json.ofText text.toList ≠ .ok (.obj members)) : ofText? text = none := by
  unfold ofText?
  split
  · next value read =>
    cases value with
    | obj members => exact absurd read (h members)
    | _ => rfl
  · rfl

theorem ofOverride_of_not_object {text : String}
    (h : ∀ members, Json.ofText text.toList ≠ .ok (.obj members)) : ofOverride text = single text := by
  unfold ofOverride
  split
  · next members read => exact absurd read (h members)
  · rfl

theorem replacement_of_object (axis : AxisName) {value : Scalar} {members : Document}
    (h : Json.ofText value.display.toList = .ok (.obj members)) :
    replacement axis value = (ofOverride value.display, []) := by
  rw [replacement, if_pos (Json.opensWith_brace h), ofText?, ofOverride, h]
  rfl

theorem replacement_of_not_object (axis : AxisName) {value : Scalar}
    (h : ∀ members, Json.ofText value.display.toList ≠ .ok (.obj members)) :
    replacement axis value = (ofOverride value.display,
      if Text.opensWith ['\x7b'] value.display.toList then [.promptOverride axis value.display]
      else []) := by
  rw [replacement, ofText?_eq_none h, ofOverride_of_not_object h]
  dsimp only
  split <;> rfl

theorem replacement_fst (axis : AxisName) (value : Scalar) :
    (replacement axis value).1 = ofOverride value.display := by
  by_cases h : ∃ members, Json.ofText value.display.toList = .ok (.obj members)
  · obtain ⟨members, h⟩ := h
    rw [replacement_of_object axis h]
  · rw [replacement_of_not_object axis fun members read => h ⟨members, read⟩]

end Prompts

namespace Assignment

def merged (prompts : Prompts) (a : Assignment) : Prompts :=
  (prompts.merge a.mode a.axis a.value).1

end Assignment

namespace SweepRequest

variable {request : SweepRequest} {options : SweepOptions} {now : Instant} {report : SweepReport}

end SweepRequest

end SettingsSweep

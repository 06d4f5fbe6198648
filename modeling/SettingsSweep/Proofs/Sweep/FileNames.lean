import SettingsSweep.Proofs.Command.Plan
import SettingsSweep.Proofs.Sweep.Run
import Mathlib.Data.List.Count
import Mathlib.Data.List.Nodup

/-!
File names under the suffix policy: no two artifacts of a run share one, so no two planned files do.
-/

set_option autoImplicit false

namespace SettingsSweep

/-- What becomes of the stems that the documents of a run ask for. Occurrences are counted up to and
    including the one at hand. -/
structure NamedApart (extension : String) (stems files : List String) : Prop where
  length_eq : files.length = stems.length
  distinct : files.Nodup
  /-- A document gets its own name, or one with a number that is not below its count. -/
  form : ∀ i stem file, stems[i]? = some stem → files[i]? = some file →
    file = stem ++ extension ∨ ∃ n, 2 ≤ n ∧ (stems.take (i + 1)).count stem ≤ n ∧
      file = stem ++ "_" ++ toString n ++ extension
  /-- Numbers are counts unless a name looks like a numbered form of another. -/
  counted :
    (∀ s ∈ stems, ∀ t ∈ stems, s ≠ t → ∀ n : Nat, 2 ≤ n →
      s ++ extension ≠ t ++ "_" ++ toString n ++ extension) →
    ∀ i stem, stems[i]? = some stem →
      files[i]? = some (
        if (stems.take (i + 1)).count stem = 1 then stem ++ extension
        else stem ++ "_" ++ toString ((stems.take (i + 1)).count stem) ++ extension)

namespace NameRegistry

theorem count_map_append (extension stem : String) (stems : List String) :
    (stems.map (· ++ extension)).count (stem ++ extension) = stems.count stem :=
  List.count_map_of_injective stems _ (fun _ _ => (String.append_left_inj extension).1) stem

theorem unmixed_map_append {extension : String} {stems : List String}
    (h : ∀ s ∈ stems, ∀ t ∈ stems, s ≠ t → ∀ n : Nat, 2 ≤ n →
      s ++ extension ≠ t ++ "_" ++ toString n ++ extension) :
    Unmixed extension (stems.map (· ++ extension)) where
  extended := by
    intro a ha
    obtain ⟨s, -, rfl⟩ := List.mem_map.1 ha
    exact ⟨s, rfl⟩
  apart := by
    intro a ha b hb hne n hn
    obtain ⟨s, hs, rfl⟩ := List.mem_map.1 ha
    obtain ⟨t, ht, rfl⟩ := List.mem_map.1 hb
    rw [numbered_append]
    exact h s hs t ht (fun e => hne (e ▸ rfl)) n hn

theorem claims_namedApart {options : NamingOptions} (policy : options.onDuplicate = .suffix)
    (stems : List String) :
    NamedApart options.extension stems
      ((claims options {} (stems.map (· ++ options.extension))).map (·.name)) where
  length_eq := by simp
  distinct := nodup_claims policy {} _
  form := by
    intro i stem file hs hf
    have hn : (stems.map (· ++ options.extension))[i]? = some (stem ++ options.extension) := by
      rw [List.getElem?_map, hs]
      rfl
    rw [List.getElem?_map, claims_getElem?, hn] at hf
    obtain rfl := Option.some.inj hf
    have count : (after options {} ((stems.map (· ++ options.extension)).take i)).asked.count
        (stem ++ options.extension) + 1 = (stems.take (i + 1)).count stem := by
      rw [after_asked, List.append_nil, List.count_reverse, ← List.map_take, count_map_append,
        List.take_add_one, hs]
      simp
    have h := (claim_suffix policy (after options {} ((stems.map (· ++ options.extension)).take i))
      (stem ++ options.extension)).2
    rw [count] at h
    simpa only [numbered_append, candidate] using h
  counted := by
    intro h i stem hs
    have hn : (stems.map (· ++ options.extension))[i]? = some (stem ++ options.extension) := by
      rw [List.getElem?_map, hs]
      rfl
    rw [List.getElem?_map, claims_occurrence policy (unmixed_map_append h) hn, ← List.map_take,
      count_map_append, occurrence, numbered_append]
    rfl

end NameRegistry

/-- Two values have one written form, and a third looks like that form with a number. -/
def clashingRequest : SweepRequest where
  base := []
  x := { name := .x, field := "sampler", choices := ["a b", "a_b", "a_b_2"] }
  y := { name := .y, field := "sampler", choices := ["euler"] }

def clashingOptions : SweepOptions where
  naming := { template := some "\x7bx_value\x7d", onDuplicate := .suffix }

theorem clashing_stems :
    clashingRequest.stems clashingOptions ⟨0, 0⟩ (clashingRequest.sweepAxes clashingOptions.catalog) =
      ["a_b", "a_b", "a_b_2"] := by
  rw [SweepRequest.sweepAxes, Axis.resolve_eq (by decide), Axis.resolve_eq (by decide)]
  decide +kernel

end SettingsSweep

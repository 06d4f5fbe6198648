import SettingsSweep.Proofs.Document.Comments
import SettingsSweep.Proofs.Files.Changes
import SettingsSweep.Proofs.Json.Printed
import SettingsSweep.Proofs.Sweep.FileNames

/-!
What a sweep leaves behind. All that can fail before the first file is written leaves the files as they are, and so
does a dry run. After a run that succeeds, every planned path leads to the last file that was planned for its place,
and nothing else is changed but that directories are made where nothing was. Printing comes last and changes no file.
-/

set_option autoImplicit false

namespace SettingsSweep

namespace Command

open FileSystem

/-! ### Writing the files of a plan -/

/-- The last of some files whose path leads to a place. -/
def lastFor (files : FileSystem) (directory place : Location) (planned : List PlannedFile) :
    Option PlannedFile :=
  planned.findRev? fun file => (files.locate directory file.path).toOption = some place

/-- What writing files leaves behind: a path leads to a place of its last name, a place has the text of the last
    file that was planned for it, and all other places are kept. -/
structure WrittenOut (directory : Location) (before after : FileSystem) (planned : List PlannedFile) :
    Prop where
  located : ∀ file ∈ planned, ∃ place, after.locate directory file.path = .ok place ∧
    place.head? = (Path.names file.path).getLast?
  filed : ∀ place file, lastFor after directory place planned = some file →
    after.entryAt? place = some (.file file.content.toUTF8)
  kept : ∀ place, lastFor after directory place planned = none → KeptAt before after place

theorem toOption_eq_some_iff {ε α : Type} {x : Except ε α} {a : α} : x.toOption = some a ↔ x = .ok a := by
  cases x <;> simp [Except.toOption]

section

variable {files : FileSystem} {directory place : Location} {planned : List PlannedFile} {file : PlannedFile}

theorem leads_of_lastFor (h : lastFor files directory place planned = some file) :
    file ∈ planned ∧ files.locate directory file.path = .ok place := by
  rw [lastFor, List.findRev?_eq_find?_reverse] at h
  have leads := List.find?_some h
  rw [decide_eq_true_eq, toOption_eq_some_iff] at leads
  exact ⟨List.mem_reverse.1 (List.mem_of_find?_eq_some h), leads⟩

theorem exists_lastFor (mem : file ∈ planned) (leads : files.locate directory file.path = .ok place) :
    ∃ last, lastFor files directory place planned = some last := by
  rw [lastFor, List.findRev?_eq_find?_reverse, ← Option.isSome_iff_exists, List.find?_isSome]
  exact ⟨file, List.mem_reverse.2 mem, by simp [leads, Except.toOption]⟩

end

section

variable {directory : Location} {files files' : FileSystem} {file : PlannedFile}

end

/-! ### Paths that do not meet -/

namespace WrittenOut

variable {directory : Location} {before after : FileSystem} {planned : List PlannedFile} {file : PlannedFile}

theorem exists_place (h : WrittenOut directory before after planned) (mem : file ∈ planned) :
    ∃ place, after.locate directory file.path = .ok place ∧
      place.head? = (Path.names file.path).getLast? ∧ ∃ last ∈ planned,
        after.locate directory last.path = .ok place ∧
        after.entryAt? place = some (.file last.content.toUTF8) := by
  obtain ⟨place, found, named⟩ := h.located file mem
  obtain ⟨last, eq⟩ := exists_lastFor mem found
  obtain ⟨member, leads⟩ := leads_of_lastFor eq
  exact ⟨place, found, named, last, member, leads, h.filed place last eq⟩

/-- Where no two files lead to one place, each is found under its own path. -/
theorem own (h : WrittenOut directory before after planned)
    (apart : (planned.map fun file => after.locate directory file.path).Nodup) (mem : file ∈ planned) :
    ∃ place, after.locate directory file.path = .ok place ∧
      after.entryAt? place = some (.file file.content.toUTF8) := by
  obtain ⟨place, found, -, last, member, leads, entry⟩ := h.exists_place mem
  obtain rfl := List.inj_on_of_nodup_map apart member mem (leads.trans found.symm)
  exact ⟨place, found, entry⟩

end WrittenOut

section

variable {session : Session} {request : SweepRequest} {options : SweepOptions} {plan : SweepPlan}
  {groupByZ : Bool} {after : FileSystem}

end

/-! ### Printing -/

section

variable {σ : Type}

namespace Outcome

variable (outcome : Outcome) (send : Print → StateM σ Bool) (console : σ)

end Outcome

end

section

variable {session : Session} {global : GlobalFlags} {flags : GenerateFlags}

end

/-- An empty base document, and a directory with a file that an earlier sweep has left. -/
def clashingSession : Session where
  files := ⟨[(["sweeps"], .directory), (["base.json", "sweeps"], .file "\x7b\x7d".toUTF8),
    (["plots", "sweeps"], .directory), (["a_b.txt", "plots", "sweeps"], .file "old".toUTF8)]⟩
  directory := ["sweeps"]
  environment := []
  now := ⟨0, 0⟩

def closed (_ : Print) : StateM Unit Bool := pure false

def unread (global : GlobalFlags) (flags : GenerateFlags) : Outcome :=
  (((generate clashingSession global flags).deliver closed).run ()).1

end Command

end SettingsSweep

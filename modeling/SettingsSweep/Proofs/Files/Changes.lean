import SettingsSweep.Proofs.Files.Walk

/-!
What is changed by making directories and by writing a file. Directories are made only where nothing was, whether
or not all of them can be made; a file is put in one place, and all others stay as they are.
-/

set_option autoImplicit false

namespace SettingsSweep.FileSystem

variable {files files' files'' : FileSystem} {directory place : Location} {path : String}

/-- A place is as it was, unless nothing was there and a directory is now. -/
def KeptAt (files files' : FileSystem) (place : Location) : Prop :=
  files'.entryAt? place = files.entryAt? place ∨
    files.entryAt? place = none ∧ files'.entryAt? place = some .directory

namespace KeptAt

theorem refl (files : FileSystem) (place : Location) : KeptAt files files place := .inl rfl

theorem entry {entry : Entry} (h : KeptAt files files' place) (there : files.entryAt? place = some entry) :
    files'.entryAt? place = some entry := by
  rcases h with same | ⟨empty, -⟩
  · rw [same, there]
  · rw [there] at empty
    cases empty

theorem trans (h : KeptAt files files' place) (h' : KeptAt files' files'' place) :
    KeptAt files files'' place := by
  rcases h with same | ⟨empty, made⟩
  · rcases h' with same' | ⟨empty', made'⟩
    · exact .inl (same'.trans same)
    · exact .inr ⟨same ▸ empty', made'⟩
  · exact .inr ⟨empty, h'.entry made⟩

end KeptAt

theorem Grows.trans (h : Grows files files') (h' : Grows files' files'') : Grows files files'' where
  directory place folder := h'.directory place (h.directory place folder)
  entry place found := h'.entry place (h.entry place found)

theorem Grows.locate (h : Grows files files') (located : files.locate directory path = .ok place) :
    files'.locate directory path = .ok place := by
  obtain ⟨sound, way, folder⟩ := locate_eq_ok_iff.1 located
  exact locate_eq_ok_iff.2 ⟨sound, h.walk way, fun slash => h.directory place (folder slash)⟩

end SettingsSweep.FileSystem

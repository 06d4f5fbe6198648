import SettingsSweep.Command.Project
import SettingsSweep.Proofs.Files.Walk

/-!
The configuration that is made and the one that is used afterwards. What is made lies in a project directory of its
own, which is searched for from the working directory, while a directory that is given is used as it is.
-/

set_option autoImplicit false

namespace SettingsSweep

namespace Project

theorem isName_dirName : Path.IsName dirName := ⟨by decide, by decide, by decide⟩

theorem isName_fileName : Path.IsName Configuration.fileName := ⟨by decide, by decide, by decide⟩

variable {files : FileSystem} {location outer : Location}

theorem above_of_inside (h : files.isDirectoryAt (dirName :: location) = true) :
    above files location = some (dirName :: location) := by
  cases location with
  | nil => rw [above, if_pos h]
  | cons name outer => rw [above, if_pos h]

theorem above_of_within (h : files.isDirectoryAt (dirName :: dirName :: outer) = false)
    (folder : files.isDirectoryAt (dirName :: outer) = true) :
    above files (dirName :: outer) = some (dirName :: outer) := by
  rw [above, h]
  exact above_of_inside folder

end Project

namespace Command

open Project FileSystem

variable {session : Session} {global : GlobalFlags} {force : Bool}

theorem exists_write_of_configInit (done : (configInit session global force).failure = none) :
    ∃ files : FileSystem, files.write session.directory (initFile session global)
      ({} : Configuration).toYaml.toUTF8 = .ok (configInit session global force).files := by
  unfold configInit at done ⊢
  dsimp only at done ⊢
  generalize ensure session.files session.directory (initTarget session global) = made at done ⊢
  obtain ⟨files, _ | fault⟩ := made
  · dsimp only at done ⊢
    split at done
    · cases done
    · next fresh =>
      rw [if_neg fresh]
      unfold Configuration.save at done ⊢
      generalize files.makeDirectories session.directory (dirFor (initTarget session global)) = nested
        at done ⊢
      obtain ⟨files, _ | fault⟩ := nested
      · refine ⟨files, ?_⟩
        dsimp only at done ⊢
        rw [initFile] at *
        cases written : files.write session.directory
            (Path.join (dirFor (initTarget session global)) Configuration.fileName)
            ({} : Configuration).toYaml.toUTF8 with
        | ok files => rfl
        | error fault =>
          rw [written] at done
          cases done
      · cases done
  · cases done

/-- A path leads to a place in which there is a configuration file. -/
structure Holds (files : FileSystem) (directory : Location) (path text : String) (above : Location) :
    Prop where
  noNul : '\x00' ∉ path.toList
  way : files.walk (startOf directory path) (Path.names path) = .ok above
  file : files.step above Configuration.fileName = .ok (Configuration.fileName :: above)
  bytes : files.entryAt? (Configuration.fileName :: above) = some (.file text.toUTF8)

namespace Holds

variable {files : FileSystem} {directory above : Location} {path text : String}

theorem folder (h : Holds files directory path text above) : files.isDirectoryAt above = true :=
  (step_eq_ok h.file).1

theorem locate_file (h : Holds files directory path text above) :
    files.locate directory (Path.join path Configuration.fileName) =
      .ok (Configuration.fileName :: above) :=
  (locate_join_eq_ok_iff isName_fileName).2 ⟨h.noNul, above, h.way, h.file⟩

theorem locate (h : Holds files directory path text above) (nonempty : path ≠ "") :
    files.locate directory path = .ok above :=
  locate_eq_ok_iff.2 ⟨pathFault?_eq_none_iff.2 ⟨h.noNul, nonempty⟩, h.way, fun _ => h.folder⟩

theorem fileText (h : Holds files directory path text above) :
    Configuration.fileText files directory (some path) = .ok text := by
  have decoded (s : String) : String.fromUTF8? s.toUTF8 = some s := dif_pos s.isValidUTF8
  rw [Configuration.fileText, isThere, readText, h.locate_file]
  dsimp only
  rw [h.bytes]
  dsimp only
  rw [decoded]
  rfl

end Holds

theorem exists_holds (done : (configInit session global force).failure = none) :
    ∃ above, Holds (configInit session global force).files session.directory
      (dirFor (initTarget session global)) ({} : Configuration).toYaml above := by
  obtain ⟨files, written⟩ := exists_write_of_configInit done
  obtain ⟨noNul, above, way, file, bytes⟩ :=
    write_join_eq_ok isName_fileName written
  exact ⟨above, noNul, way, file, bytes⟩

/-- Without a project directory of its name, a path has one made in it. -/
theorem exists_outer_of_holds {files : FileSystem} {directory above : Location} {target text : String}
    (h : Holds files directory (dirFor target) text above) (other : Path.lastName? target ≠ some dirName) :
    '\x00' ∉ target.toList ∧ ∃ outer, above = dirName :: outer ∧
      files.walk (startOf directory target) (Path.names target) = .ok outer ∧
      files.step outer dirName = .ok above := by
  have dir : dirFor target = Path.join target dirName := if_neg other
  have located := h.way
  rw [dir, startOf_join isName_dirName, Path.names_join isName_dirName] at located
  obtain ⟨outer, way, last⟩ := walk_concat_eq_ok located
  have noNul := h.noNul
  rw [dir, Path.nul_mem_join isName_dirName] at noNul
  exact ⟨noNul, outer, eq_cons_of_step (by decide) (by decide) last, way, last⟩

def Session.after (session : Session) (outcome : Outcome) : Session :=
  { session with files := outcome.files }

def Session.ReadsAt (session : Session) (global : GlobalFlags) (place : Location) : Prop :=
  ∃ dir, session.projectDir? global = some dir ∧
    session.files.locate session.directory (Path.join dir Configuration.fileName) = .ok place

/-- A directory that is given is called like a project directory, or there is none in a working directory
    that is called so. -/
def Session.FindsOwn (session : Session) (global : GlobalFlags) : Prop :=
  match global.configDir with
  | some dir => Path.lastName? dir = some dirName
  | none => Path.lastName? session.directory.path = some dirName →
    session.files.isDirectory session.directory
      (Path.join session.directory.path dirName) = false

section

variable {above : Location} {text : String}

theorem readsAt_iff {dir : String} (found : session.projectDir? global = some dir) (place : Location) :
    session.ReadsAt global place ↔
      session.files.locate session.directory (Path.join dir Configuration.fileName) = .ok place := by
  rw [Session.ReadsAt, found]
  simp

theorem holds_path {files : FileSystem} {directory : Location} {path : String}
    (h : Holds files directory path text above) (reached : files.Reached above) :
    Holds files directory above.path text above :=
  ⟨Location.nul_notMem_path reached.isName, reached.walk_path directory, h.file, h.bytes⟩

/-- What is made below a directory that is given is not read in it. -/
theorem lastName?_of_readsAt {dir : String} (given : global.configDir = some dir)
    (h : Holds session.files session.directory (dirFor dir) text above)
    (reads : session.ReadsAt global (Configuration.fileName :: above)) :
    Path.lastName? dir = some dirName := by
  have found : session.projectDir? global = some dir := by
    rw [Session.projectDir?, given]
  rw [readsAt_iff found] at reads
  refine Classical.byContradiction fun other => ?_
  obtain ⟨-, outer, rfl, way, -⟩ := exists_outer_of_holds h other
  obtain ⟨-, place, way', last⟩ := (locate_join_eq_ok_iff isName_fileName).1 reads
  obtain rfl : outer = place := by
    rw [way] at way'
    exact Except.ok.inj way'
  have same := eq_cons_of_step (by decide) (by decide) last
  exact absurd (congrArg List.length same) (by simp)

theorem projectDir?_of_found (plain : session.environment.find? variableName = none)
    (none : global.configDir = none) {start : Location}
    (located : session.files.locate session.directory session.directory.path = .ok start) :
    session.projectDir? global = (Project.above session.files start).map Location.path := by
  rw [Session.projectDir?, none]
  dsimp only
  rw [Project.find, plain]
  dsimp only
  rw [findAbove, located]

theorem reached_of_walk {files : FileSystem} {directory place : Location} {location : Location}
    (noNul : '\x00' ∉ directory.path.toList)
    (way : files.walk (startOf location directory.path) (Path.names directory.path) = .ok place) :
    files.Reached place := by
  rw [startOf, if_pos (Location.isAbsolute_path directory)] at way
  exact Reached.root.of_walk (fun name hn => Path.isName_of_mem_names noNul hn) way

/-- In a working directory of another name, what is made there is the nearest. -/
theorem projectDir?_of_other (plain : session.environment.find? variableName = none)
    (none : global.configDir = none)
    (other : Path.lastName? session.directory.path ≠ some dirName)
    (h : Holds session.files session.directory (dirFor session.directory.path) text above) :
    session.projectDir? global = some above.path ∧ session.files.Reached above := by
  obtain ⟨noNul, outer, rfl, way, last⟩ := exists_outer_of_holds h other
  have located : session.files.locate session.directory session.directory.path = .ok outer :=
    locate_eq_ok_iff.2 ⟨pathFault?_eq_none_iff.2 ⟨noNul, Location.path_ne_empty _⟩, way,
      fun _ => (step_eq_ok last).1⟩
  rw [projectDir?_of_found plain none located, above_of_inside h.folder]
  exact ⟨rfl, .inside (reached_of_walk noNul way) isName_dirName last⟩

/-- In a project directory, one that lies in it is nearer than itself. -/
theorem projectDir?_of_own (plain : session.environment.find? variableName = none)
    (none : global.configDir = none)
    (own : Path.lastName? session.directory.path = some dirName)
    (h : Holds session.files session.directory session.directory.path text above) :
    session.projectDir? global = some (if session.files.isDirectoryAt (dirName :: above) then
      Location.path (dirName :: above) else above.path) := by
  obtain ⟨outer, rfl⟩ := exists_of_lastName? own (by decide) (by decide) h.way
  rw [projectDir?_of_found plain none (h.locate (Location.path_ne_empty _))]
  split
  · next inner => rw [above_of_inside inner]; rfl
  · next inner => rw [above_of_within (by simpa using inner) h.folder]; rfl

theorem step_of_inner {files : FileSystem} (folder : files.isDirectoryAt above = true)
    (inner : files.isDirectoryAt (dirName :: above) = true) :
    files.step above dirName = .ok (dirName :: above) := by
  have there : (files.entryAt? (dirName :: above)).isSome = true := by
    cases entry : files.entryAt? (dirName :: above) with
    | none => rw [isDirectoryAt, entry] at inner; cases inner
    | some _ => rfl
  exact step_cons folder (by decide) (by decide) (by decide) there

theorem isDirectory_join {files : FileSystem} {directory : Location} {path : String}
    (h : Holds files directory path text above) :
    files.isDirectory directory (Path.join path dirName) = files.isDirectoryAt (dirName :: above) := by
  rw [isDirectory, Bool.eq_iff_iff]
  constructor
  · intro inner
    split at inner
    · next place located =>
      obtain ⟨-, other, way, last⟩ := (locate_join_eq_ok_iff isName_dirName).1 located
      rw [h.way] at way
      cases way
      rw [← eq_cons_of_step (by decide) (by decide) last]
      exact inner
    · cases inner
  · intro inner
    rw [(locate_join_eq_ok_iff isName_dirName).2 ⟨h.noNul, above, h.way, step_of_inner h.folder inner⟩]
    exact inner

/-- A project directory in use, with the text of its configuration. -/
structure InUse (session : Session) (global : GlobalFlags) (text : String) (above : Location)
    (dir : String) : Prop where
  found : session.projectDir? global = some dir
  located : session.files.locate session.directory dir = .ok above
  file : session.files.locate session.directory (Path.join dir Configuration.fileName) =
    .ok (Configuration.fileName :: above)
  loaded : session.loadConfig global =
    (Configuration.ofText text session.environment).mapError (.config (some dir))
  reported : (configPath session global).stdout =
    if global.json then (Json.obj [("path", .str dir)]).pretty ++ "\n" else dir ++ "\n"

theorem inUse_of_holds {dir : String} (found : session.projectDir? global = some dir)
    (nonempty : dir ≠ "") (h : Holds session.files session.directory dir text above) :
    InUse session global text above dir := by
  refine ⟨found, h.locate nonempty, h.locate_file, ?_, ?_⟩
  · rw [Session.loadConfig, found, Configuration.load, h.fileText]
    rfl
  · rw [configPath, found]
    dsimp only
    split <;> rfl

theorem exists_inUse_of_findsOwn (plain : session.environment.find? variableName = none)
    (h : Holds session.files session.directory (dirFor (initTarget session global)) text above)
    (own : session.FindsOwn global) : ∃ dir, InUse session global text above dir := by
  rw [Session.FindsOwn] at own
  rw [initTarget] at h
  cases given : global.configDir with
  | some dir =>
    rw [given] at own h
    rw [Option.getD_some, dirFor, if_pos own] at h
    have found : session.projectDir? global = some dir := by rw [Session.projectDir?, given]
    have named : Path.lastName? "" ≠ some dirName := by decide
    exact ⟨dir, inUse_of_holds found (fun empty => named (empty ▸ own)) h⟩
  | none =>
    rw [given] at own h
    rw [Option.getD_none] at h
    refine ⟨above.path, ?_⟩
    by_cases name : Path.lastName? session.directory.path = some dirName
    · rw [dirFor, if_pos name] at h
      have found := projectDir?_of_own plain given name h
      rw [← isDirectory_join h, own name, if_neg Bool.false_ne_true] at found
      exact inUse_of_holds found (Location.path_ne_empty above)
        (holds_path h (reached_of_walk h.noNul h.way))
    · obtain ⟨found, reached⟩ := projectDir?_of_other plain given name h
      exact inUse_of_holds found (Location.path_ne_empty above) (holds_path h reached)

theorem findsOwn_of_readsAt (plain : session.environment.find? variableName = none)
    (h : Holds session.files session.directory (dirFor (initTarget session global)) text above)
    (reads : session.ReadsAt global (Configuration.fileName :: above)) : session.FindsOwn global := by
  rw [initTarget] at h
  cases given : global.configDir with
  | some dir =>
    rw [Session.FindsOwn, given]
    rw [given] at h
    exact lastName?_of_readsAt given h reads
  | none =>
    rw [Session.FindsOwn, given]
    rw [given] at h
    intro name
    rw [Option.getD_none, dirFor, if_pos name] at h
    rw [isDirectory_join h, Bool.eq_false_iff]
    intro inner
    have found := projectDir?_of_own plain given name h
    rw [if_pos inner] at found
    have reached : session.files.Reached (dirName :: above) :=
      .inside (reached_of_walk h.noNul h.way) isName_dirName (step_of_inner h.folder inner)
    obtain ⟨-, other, way, last⟩ :=
      (locate_join_eq_ok_iff isName_fileName).1 ((readsAt_iff found _).1 reads)
    rw [reached.walk_path] at way
    cases way
    have same := eq_cons_of_step (by decide) (by decide) last
    exact absurd (congrArg List.length same) (by simp)

theorem used_after {outcome : Outcome} (plain : session.environment.find? variableName = none)
    (made : Holds outcome.files session.directory (dirFor (initTarget session global)) text above) :
    (session.after outcome).files.locate session.directory (initFile session global) =
      .ok (Configuration.fileName :: above) ∧
    ((session.after outcome).ReadsAt global (Configuration.fileName :: above) ↔
      (session.after outcome).FindsOwn global) ∧
    ((session.after outcome).FindsOwn global →
      ∃ dir, InUse (session.after outcome) global text above dir) := by
  have made : Holds (session.after outcome).files (session.after outcome).directory
      (dirFor (initTarget (session.after outcome) global)) text above := made
  have plain : (session.after outcome).environment.find? variableName = none := plain
  have used := exists_inUse_of_findsOwn plain made
  refine ⟨made.locate_file, ⟨findsOwn_of_readsAt plain made, fun own => ?_⟩, used⟩
  obtain ⟨dir, use⟩ := used own
  exact ⟨dir, use.found, use.file⟩

end

/-- What an initialization makes is used afterwards if and only if it is found by itself: then its directory
    is the project directory, and its file is what is loaded. -/
theorem init_then_load (plain : session.environment.find? variableName = none)
    (done : (configInit session global force).failure = none) :
    ∃ above,
      (session.after (configInit session global force)).files.locate session.directory
        (initFile session global) = .ok (Configuration.fileName :: above) ∧
      ((session.after (configInit session global force)).ReadsAt global
          (Configuration.fileName :: above) ↔
        (session.after (configInit session global force)).FindsOwn global) ∧
      ((session.after (configInit session global force)).FindsOwn global → ∃ dir,
        InUse (session.after (configInit session global force)) global
          ({} : Configuration).toYaml above dir) := by
  obtain ⟨above, made⟩ := exists_holds done
  exact ⟨above, used_after plain made⟩

def freshSession : Session where
  files := ⟨[(["sweeps"], .directory)]⟩
  directory := ["sweeps"]
  environment := []
  now := ⟨0, 0⟩

theorem init_then_load_fresh :
    (configInit freshSession {} false).failure = none ∧
      ∃ above dir, InUse (freshSession.after (configInit freshSession {} false)) {}
        ({} : Configuration).toYaml above dir := by
  have done : (configInit freshSession {} false).failure = none := rfl
  have other : Path.lastName? freshSession.directory.path ≠ some dirName := by decide
  obtain ⟨above, -, -, used⟩ := init_then_load rfl done
  obtain ⟨dir, use⟩ := used fun own => absurd own other
  exact ⟨done, above, dir, use⟩

/-- Of a directory that is given the file is read in it, but was made below it. -/
theorem init_below_given_directory :
    (configInit freshSession { configDir := some "new" } false).failure = none ∧
      (freshSession.after (configInit freshSession { configDir := some "new" } false)).files.locate
        freshSession.directory (initFile freshSession { configDir := some "new" }) =
          .ok ["config.yaml", ".xyzplot", "new", "sweeps"] ∧
      ¬ (freshSession.after (configInit freshSession { configDir := some "new" } false)).ReadsAt
        { configDir := some "new" } ["config.yaml", ".xyzplot", "new", "sweeps"] := by
  refine ⟨rfl, rfl, ?_⟩
  rintro ⟨dir, found, located⟩
  obtain rfl : "new" = dir := Option.some.inj found
  cases located

end Command

end SettingsSweep

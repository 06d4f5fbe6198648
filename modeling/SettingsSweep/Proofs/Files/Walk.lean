import SettingsSweep.Proofs.Files.Path

/-!
Ways through a file system. A place that is reached from the root is led to by its own path, whatever leads to a
place still does after a file is written, and a file that is written is found under the path it was written to.
-/

set_option autoImplicit false

namespace SettingsSweep

namespace FileSystem

variable {files files' : FileSystem} {location next : Location} {name : String}

theorem step_eq_ok (h : files.step location name = .ok next) :
    files.isDirectoryAt location = true ∧
      (name = "." ∧ next = location ∨ name = ".." ∧ next = location.tail ∨
        name ≠ "." ∧ name ≠ ".." ∧ name.utf8ByteSize ≤ maxName ∧ next = name :: location ∧
          (files.entryAt? (name :: location)).isSome = true) := by
  unfold step at h
  split at h
  · cases h
  · next directory =>
    refine ⟨by simpa using directory, ?_⟩
    split at h
    · next here =>
      cases h
      exact .inl ⟨here, rfl⟩
    · next here =>
      split at h
      · next up =>
        cases h
        exact .inr (.inl ⟨up, rfl⟩)
      · next up =>
        split at h
        · cases h
        · next short =>
          split at h
          · next entry found =>
            cases h
            exact .inr (.inr ⟨here, up, Nat.le_of_not_lt short, rfl, by rw [found]; rfl⟩)
          · cases h

theorem step_cons (directory : files.isDirectoryAt location = true) (here : name ≠ ".") (up : name ≠ "..")
    (short : name.utf8ByteSize ≤ maxName)
    (found : (files.entryAt? (name :: location)).isSome = true) :
    files.step location name = .ok (name :: location) := by
  obtain ⟨entry, found⟩ := Option.isSome_iff_exists.1 found
  rw [step, directory, found, if_neg here, if_neg up, if_neg (Nat.not_lt.2 short)]
  rfl

theorem eq_cons_of_step (here : name ≠ ".") (up : name ≠ "..")
    (h : files.step location name = .ok next) : next = name :: location := by
  obtain ⟨-, ⟨e, -⟩ | ⟨e, -⟩ | ⟨-, -, -, e, -⟩⟩ := step_eq_ok h
  · exact absurd e here
  · exact absurd e up
  · exact e

theorem walk_append (start : Location) (names more : List String) :
    files.walk start (names ++ more) =
      (files.walk start names).bind fun location => files.walk location more := by
  induction names generalizing start with
  | nil => rfl
  | cons name names ih =>
    rw [List.cons_append, walk, walk]
    split
    · exact ih _
    · rfl

theorem walk_concat_eq_ok {start : Location} {names : List String}
    (h : files.walk start (names ++ [name]) = .ok next) :
    ∃ location, files.walk start names = .ok location ∧ files.step location name = .ok next := by
  rw [walk_append] at h
  cases above : files.walk start names with
  | error fault => rw [above] at h; cases h
  | ok location =>
    rw [above] at h
    refine ⟨location, rfl, ?_⟩
    change files.walk location [name] = .ok next at h
    rw [walk] at h
    split at h
    · next eq =>
      rw [eq]
      exact h
    · cases h

theorem eq_of_walk_dots {dots : List String} (all : ∀ dot ∈ dots, dot = ".")
    (h : files.walk location dots = .ok next) : next = location := by
  induction dots generalizing location with
  | nil =>
    cases h
    rfl
  | cons dot dots ih =>
    obtain rfl := all dot List.mem_cons_self
    rw [walk] at h
    split at h
    · next first hs =>
      obtain ⟨-, ⟨-, rfl⟩ | ⟨e, -⟩ | ⟨e, -⟩⟩ := step_eq_ok hs
      · exact ih (fun d hd => all d (List.mem_cons_of_mem _ hd)) h
      · exact absurd e (by decide)
      · exact absurd rfl e
    · cases h

theorem exists_of_lastName? {path : String} (last : Path.lastName? path = some name) (here : name ≠ ".")
    (up : name ≠ "..") {start : Location} (h : files.walk start (Path.names path) = .ok location) :
    ∃ outer, location = name :: outer := by
  obtain ⟨names, dots, parts, all⟩ := Path.names_of_lastName? last
  rw [parts, walk_append] at h
  cases above : files.walk start names with
  | error fault => rw [above] at h; cases h
  | ok outer =>
    rw [above] at h
    change files.walk outer (name :: dots) = .ok location at h
    rw [walk] at h
    split at h
    · next first hs =>
      rw [eq_of_walk_dots all h, eq_cons_of_step here up hs]
      exact ⟨outer, rfl⟩
    · cases h

/-- A place to which there is a way from the root. -/
inductive Reached (files : FileSystem) : Location → Prop
  | root : Reached files []
  | inside {outer : Location} {name : String} (above : Reached files outer) (isName : Path.IsName name)
      (way : files.step outer name = .ok (name :: outer)) : Reached files (name :: outer)

namespace Reached

theorem tail (h : files.Reached location) : files.Reached location.tail := by
  cases h with
  | root => exact .root
  | inside above _ _ => exact above

theorem isName (h : files.Reached location) : ∀ name ∈ location, Path.IsName name := by
  induction h with
  | root => simp
  | inside _ first _ ih =>
    intro name hn
    rcases List.mem_cons.1 hn with rfl | hn
    · exact first
    · exact ih name hn

theorem walk (h : files.Reached location) : files.walk [] location.reverse = .ok location := by
  induction h with
  | root => rfl
  | inside _ _ way ih =>
    rw [List.reverse_cons, walk_append, ih]
    change files.walk _ [_] = _
    rw [FileSystem.walk, way]
    rfl

theorem of_walk {start : Location} {names : List String} (h : files.Reached start)
    (proper : ∀ name ∈ names, Path.IsName name) (way : files.walk start names = .ok next) :
    files.Reached next := by
  induction names generalizing start with
  | nil =>
    cases way
    exact h
  | cons name names ih =>
    rw [FileSystem.walk] at way
    split at way
    · next first hs =>
      refine ih ?_ (fun n hn => proper n (List.mem_cons_of_mem name hn)) way
      obtain ⟨-, ⟨-, rfl⟩ | ⟨-, rfl⟩ | ⟨-, -, -, rfl, -⟩⟩ := step_eq_ok hs
      · exact h
      · exact h.tail
      · exact .inside h (proper name List.mem_cons_self) hs
    · cases way

end Reached

theorem locate_eq_ok_iff {directory : Location} {path : String} :
    files.locate directory path = .ok location ↔
      pathFault? path = none ∧ files.walk (startOf directory path) (Path.names path) = .ok location ∧
        (Path.endsWithSlash path = true → files.isDirectoryAt location = true) := by
  unfold locate
  split
  · next fault bad => simp [bad]
  · next sound =>
    rw [sound]
    split
    · next fault lost => simp [lost]
    · next found way =>
      rw [way]
      split
      · next file =>
        simp only [Bool.and_eq_true, Bool.not_eq_true'] at file
        simp only [true_and, reduceCtorEq, Except.ok.injEq, false_iff, not_and]
        rintro rfl folder
        rw [folder file.1] at file
        cases file.2
      · next fits =>
        simp only [true_and, Except.ok.injEq, iff_self_and]
        rintro rfl slash
        simpa [slash] using fits

theorem pathFault?_eq_none_iff {path : String} :
    pathFault? path = none ↔ '\x00' ∉ path.toList ∧ path ≠ "" := by
  unfold pathFault?
  split
  · next nul => simp [nul]
  · next plain =>
    split
    · next empty => simp [empty]
    · next nonempty => simp [plain, nonempty]

theorem startOf_join (h : Path.IsName name) (directory : Location) (base : String) :
    startOf directory (Path.join base name) = startOf directory base := by
  rw [startOf, startOf, Path.isAbsolute_join h]

/-- The way to what lies in a directory passes through it. -/
theorem locate_join_eq_ok_iff (h : Path.IsName name) {directory : Location} {base : String} :
    files.locate directory (Path.join base name) = .ok next ↔ '\x00' ∉ base.toList ∧
      ∃ location, files.walk (startOf directory base) (Path.names base) = .ok location ∧
        files.step location name = .ok next := by
  rw [locate_eq_ok_iff, pathFault?_eq_none_iff, Path.nul_mem_join h, startOf_join h, Path.names_join h,
    Path.endsWithSlash_join h]
  constructor
  · rintro ⟨⟨noNul, -⟩, way, -⟩
    exact ⟨noNul, walk_concat_eq_ok way⟩
  · rintro ⟨noNul, location, above, last⟩
    refine ⟨⟨noNul, Path.join_ne_empty h base⟩, ?_, fun slash => by cases slash⟩
    rw [walk_append, above]
    change files.walk location [name] = _
    rw [walk, last]
    rfl

theorem Reached.walk_path (h : files.Reached location) (directory : Location) :
    files.walk (startOf directory location.path) (Path.names location.path) = .ok location := by
  rw [startOf, if_pos (Location.isAbsolute_path location), Location.names_path h.isName]
  exact h.walk

/-- Directories stay what they are, and nothing goes away. -/
structure Grows (files files' : FileSystem) : Prop where
  directory : ∀ place, files.isDirectoryAt place = true → files'.isDirectoryAt place = true
  entry : ∀ place, (files.entryAt? place).isSome = true → (files'.entryAt? place).isSome = true

theorem Grows.step (h : Grows files files') (way : files.step location name = .ok next) :
    files'.step location name = .ok next := by
  obtain ⟨folder, ⟨rfl, rfl⟩ | ⟨rfl, rfl⟩ | ⟨here, up, short, rfl, found⟩⟩ := step_eq_ok way
  · rw [FileSystem.step, h.directory _ folder]
    rfl
  · rw [FileSystem.step, h.directory _ folder]
    rfl
  · exact step_cons (h.directory _ folder) here up short (h.entry _ found)

theorem Grows.walk (h : Grows files files') {start : Location} {names : List String}
    (way : files.walk start names = .ok next) : files'.walk start names = .ok next := by
  induction names generalizing start with
  | nil => exact way
  | cons name names ih =>
    rw [FileSystem.walk] at way
    split at way
    · next first hs =>
      rw [FileSystem.walk, h.step hs]
      exact ih way
    · cases way

theorem grows_put {place : Location} (old : files.isDirectoryAt place = false) (entry : Entry) :
    Grows files (files.put place entry) := by
  have inside : place ≠ [] := by
    rintro rfl
    cases old
  constructor
  · intro other folder
    have ne : other ≠ place := by
      rintro rfl
      rw [folder] at old
      cases old
    rw [isDirectoryAt, entryAt?_put_of_ne ne]
    exact folder
  · intro other found
    by_cases same : other = place
    · rw [same, entryAt?_put_self inside]
      rfl
    · rw [entryAt?_put_of_ne same]
      exact found

theorem newPlace_eq_ok {directory above : Location} {path : String} {last : Option String}
    (place : files.newPlace directory path = .ok (above, last)) :
    pathFault? path = none ∧
      files.walk (startOf directory path) (Path.names path).dropLast = .ok above ∧
      files.isDirectoryAt above = true ∧
      last = (Path.names path).getLast?.filter fun name => name ≠ "." && name ≠ ".." := by
  unfold newPlace at place
  split at place
  · cases place
  · next sound =>
    dsimp only at place
    split at place
    · cases place
    · next found way =>
      split at place
      · cases place
      · next folder =>
        cases place
        exact ⟨sound, way, by simpa using folder, rfl⟩

/-- A path leads to a directory and, by its last name, to what can be a file in it. -/
structure EndsIn (files : FileSystem) (directory : Location) (path name : String) (above : Location) :
    Prop where
  sound : pathFault? path = none
  last : (Path.names path).getLast? = some name
  here : name ≠ "."
  up : name ≠ ".."
  way : files.walk (startOf directory path) (Path.names path).dropLast = .ok above
  folder : files.isDirectoryAt above = true
  noSlash : Path.endsWithSlash path = false
  short : name.utf8ByteSize ≤ maxName
  free : files.isDirectoryAt (name :: above) = false

theorem write_eq_ok {directory : Location} {path : String} {bytes : ByteArray}
    (written : files.write directory path bytes = .ok files') :
    ∃ name above, files.EndsIn directory path name above ∧
      files' = files.put (name :: above) (.file bytes) := by
  unfold write at written
  split at written
  · cases written
  · next above last place =>
    obtain ⟨sound, way, folder, named⟩ := newPlace_eq_ok place
    split at written
    · split at written <;> cases written
    · next name =>
      split at written
      · cases written
      · next noSlash =>
        split at written
        · cases written
        · next short =>
          split at written
          · cases written
          · next free =>
            cases written
            obtain ⟨last, proper⟩ := Option.filter_eq_some_iff.1 named.symm
            simp only [Bool.and_eq_true, decide_eq_true_eq] at proper
            exact ⟨name, above, ⟨sound, last, proper.1, proper.2, way, folder, by simpa using noSlash,
              Nat.le_of_not_lt short, by simpa using free⟩, rfl⟩

namespace EndsIn

variable {directory above : Location} {path : String}

theorem grows (h : files.EndsIn directory path name above) (entry : Entry) :
    Grows files (files.put (name :: above) entry) :=
  grows_put h.free entry

theorem step_put (h : files.EndsIn directory path name above) (entry : Entry) :
    (files.put (name :: above) entry).step above name = .ok (name :: above) := by
  refine step_cons ((h.grows entry).directory above h.folder) h.here h.up h.short ?_
  rw [entryAt?_put_self (List.cons_ne_nil name above)]
  rfl

end EndsIn

theorem write_join_eq_ok (h : Path.IsName name) {directory : Location} {base : String} {bytes : ByteArray}
    (written : files.write directory (Path.join base name) bytes = .ok files') :
    '\x00' ∉ base.toList ∧ ∃ above,
      files'.walk (startOf directory base) (Path.names base) = .ok above ∧
      files'.step above name = .ok (name :: above) ∧
      files'.entryAt? (name :: above) = some (.file bytes) := by
  obtain ⟨last, above, ends, rfl⟩ := write_eq_ok written
  obtain rfl : name = last := by
    have named := ends.last
    rw [Path.names_join h, List.getLast?_concat] at named
    exact Option.some.inj named
  have sound := ends.sound
  rw [pathFault?_eq_none_iff, Path.nul_mem_join h] at sound
  have way := (ends.grows (.file bytes)).walk ends.way
  rw [startOf_join h, Path.names_join h, List.dropLast_concat] at way
  exact ⟨sound.1, above, way, ends.step_put _, entryAt?_put_self (List.cons_ne_nil name above) _ _⟩

end FileSystem

end SettingsSweep

import SettingsSweep.Files.Path

/-!
A tree of directories and files, and the operations on it that can fail. Main statements: what is read after
a file is written, and that writing touches no other place.
-/

set_option autoImplicit false

namespace SettingsSweep

inductive FileFault
  | notFound
  | notDirectory
  | isDirectory
  | alreadyThere
  | nameTooLong
  | badPath
  | notText
  deriving DecidableEq

def FileFault.message : FileFault → String
  | .notFound => "No such file or directory (os error 2)"
  | .notDirectory => "Not a directory (os error 20)"
  | .isDirectory => "Is a directory (os error 21)"
  | .alreadyThere => "File exists (os error 17)"
  | .nameTooLong => "File name too long (os error 36)"
  | .badPath => "file name contained an unexpected NUL byte"
  | .notText => "stream did not contain valid UTF-8"

/-- A place in a file system: the names that lead to it from the root, innermost first. -/
abbrev Location := List String

def Location.path (location : Location) : String := "/" ++ "/".intercalate location.reverse

inductive Entry
  | directory
  | file (bytes : ByteArray)

/-- What is at which place. The root is always there. There are no links, so no place is another one, and names are
    compared as they are. -/
structure FileSystem where
  entries : List (Location × Entry) := []

namespace FileSystem

def find? (location : Location) : List (Location × Entry) → Option Entry
  | [] => none
  | (place, entry) :: rest => if place = location then some entry else find? location rest

def entryAt? (files : FileSystem) (location : Location) : Option Entry :=
  if location = [] then some .directory else find? location files.entries

def replace (location : Location) (entry : Entry) :
    List (Location × Entry) → List (Location × Entry)
  | [] => [(location, entry)]
  | (place, old) :: rest =>
    if place = location then (place, entry) :: rest else (place, old) :: replace location entry rest

def put (files : FileSystem) (location : Location) (entry : Entry) : FileSystem :=
  ⟨replace location entry files.entries⟩

theorem find?_replace_self (location : Location) (entry : Entry)
    (entries : List (Location × Entry)) :
    find? location (replace location entry entries) = some entry := by
  induction entries with
  | nil => simp [replace, find?]
  | cons first rest ih =>
    obtain ⟨place, old⟩ := first
    by_cases h : place = location <;> simp [replace, find?, h, ih]

theorem find?_replace_of_ne {location other : Location} (h : other ≠ location) (entry : Entry)
    (entries : List (Location × Entry)) :
    find? other (replace location entry entries) = find? other entries := by
  induction entries with
  | nil => simp [replace, find?, Ne.symm h]
  | cons first rest ih =>
    obtain ⟨place, old⟩ := first
    by_cases hp : place = location
    · subst hp; simp [replace, find?, Ne.symm h]
    · simp [replace, find?, hp, ih]

theorem entryAt?_put_self {location : Location} (h : location ≠ []) (files : FileSystem)
    (entry : Entry) : (files.put location entry).entryAt? location = some entry := by
  simp [entryAt?, put, h, find?_replace_self]

theorem entryAt?_put_of_ne {location other : Location} (h : other ≠ location) (files : FileSystem)
    (entry : Entry) : (files.put location entry).entryAt? other = files.entryAt? other := by
  simp [entryAt?, put, find?_replace_of_ne h]

def isDirectoryAt (files : FileSystem) (location : Location) : Bool :=
  match files.entryAt? location with
  | some .directory => true
  | _ => false

def maxName : Nat := 255

def step (files : FileSystem) (location : Location) (name : String) : Except FileFault Location :=
  if !files.isDirectoryAt location then .error .notDirectory
  else if name = "." then .ok location
  else if name = ".." then .ok location.tail
  else if maxName < name.utf8ByteSize then .error .nameTooLong
  else match files.entryAt? (name :: location) with
    | some _ => .ok (name :: location)
    | none => .error .notFound

def walk (files : FileSystem) : Location → List String → Except FileFault Location
  | location, [] => .ok location
  | location, name :: names => match files.step location name with
    | .ok next => walk files next names
    | .error fault => .error fault

def startOf (directory : Location) (path : String) : Location :=
  if Path.isAbsolute path then [] else directory

def pathFault? (path : String) : Option FileFault :=
  if '\x00' ∈ path.toList then some .badPath
  else if path = "" then some .notFound
  else none

def locate (files : FileSystem) (directory : Location) (path : String) :
    Except FileFault Location :=
  match pathFault? path with
  | some fault => .error fault
  | none => match files.walk (startOf directory path) (Path.names path) with
    | .error fault => .error fault
    | .ok location =>
      if Path.endsWithSlash path && !files.isDirectoryAt location then .error .notDirectory
      else .ok location

def isThere (files : FileSystem) (directory : Location) (path : String) : Bool :=
  match files.locate directory path with
  | .ok _ => true
  | .error _ => false

def isDirectory (files : FileSystem) (directory : Location) (path : String) : Bool :=
  match files.locate directory path with
  | .ok location => files.isDirectoryAt location
  | .error _ => false

def readText (files : FileSystem) (directory : Location) (path : String) :
    Except FileFault String :=
  match files.locate directory path with
  | .error fault => .error fault
  | .ok location => match files.entryAt? location with
    | none => .error .notFound
    | some .directory => .error .isDirectory
    | some (.file bytes) => match String.fromUTF8? bytes with
      | some text => .ok text
      | none => .error .notText

/-- The place of a path whose last name may be new, as the place above it and that name. Without a last
    name the path is one of a directory. -/
def newPlace (files : FileSystem) (directory : Location) (path : String) :
    Except FileFault (Location × Option String) :=
  match pathFault? path with
  | some fault => .error fault
  | none =>
    let names := Path.names path
    match files.walk (startOf directory path) names.dropLast with
    | .error fault => .error fault
    | .ok above =>
      if !files.isDirectoryAt above then .error .notDirectory
      else .ok (above, names.getLast?.filter fun name => name ≠ "." && name ≠ "..")

def write (files : FileSystem) (directory : Location) (path : String) (bytes : ByteArray) :
    Except FileFault FileSystem :=
  match files.newPlace directory path with
  | .error fault => .error fault
  | .ok (above, last) => match last with
    | none => match files.locate directory path with
      | .ok _ => .error .isDirectory
      | .error fault => .error fault
    | some name =>
      if Path.endsWithSlash path then .error .isDirectory
      else if maxName < name.utf8ByteSize then .error .nameTooLong
      else if files.isDirectoryAt (name :: above) then .error .isDirectory
      else .ok (files.put (name :: above) (.file bytes))

def makeDirectory (files : FileSystem) (directory : Location) (path : String) :
    Except FileFault FileSystem :=
  match files.newPlace directory path with
  | .error fault => .error fault
  | .ok (above, last) => match last with
    | none => .error .alreadyThere
    | some name =>
      if maxName < name.utf8ByteSize then .error .nameTooLong
      else match files.entryAt? (name :: above) with
        | some _ => .error .alreadyThere
        | none => .ok (files.put (name :: above) .directory)

/-- Makes the first of some paths, each of which lies in the next. Those that are missing are made before
    it, and stay when it cannot be made. -/
def makeNested (files : FileSystem) (directory : Location) :
    List String → FileSystem × Option FileFault
  | [] => (files, some .notFound)
  | path :: above =>
    if path = "" then (files, none)
    else match files.makeDirectory directory path with
      | .ok made => (made, none)
      | .error .notFound =>
        match files.makeNested directory above with
        | (outer, some fault) => (outer, some fault)
        | (outer, none) => match outer.makeDirectory directory path with
          | .ok made => (made, none)
          | .error fault =>
            (outer, if outer.isDirectory directory path then none else some fault)
      | .error fault =>
        (files, if files.isDirectory directory path then none else some fault)

def makeDirectories (files : FileSystem) (directory : Location) (path : String) :
    FileSystem × Option FileFault :=
  files.makeNested directory (Path.upwards path)

end FileSystem

end SettingsSweep

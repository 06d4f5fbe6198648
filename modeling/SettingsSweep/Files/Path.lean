import SettingsSweep.Text.Lines

/-!
Paths as texts: names with slashes between them, absolute if a slash comes first. A path keeps the way it is
spelled; only what a question is about is looked at.
-/

set_option autoImplicit false

namespace SettingsSweep.Path

def isAbsolute (path : String) : Bool := path.toList.head? = some '/'

/-- The names on a path, with `.` and `..` among them. -/
def names (path : String) : List String :=
  ((Text.splitOn '/' path.toList).filter (· ≠ [])).map String.ofList

def endsWithSlash (path : String) : Bool := path.toList.getLast? = some '/'

/-- A path that is relative to another. An absolute one stands for itself. -/
def join (base path : String) : String :=
  if isAbsolute path || base = "" then path
  else if endsWithSlash base then base ++ path
  else base ++ "/" ++ path

/-- Drops what adds nothing to the end of a path, given in reverse: empty pieces, and dots other than one
    that a relative path starts with. -/
def dropIdle (relative : Bool) : List (List Char) → List (List Char)
  | [] => []
  | piece :: before =>
    if piece = [] ∨ (piece = ['.'] ∧ !(relative && before.isEmpty)) then dropIdle relative before
    else piece :: before

def pieces (path : String) : List (List Char) :=
  let all := Text.splitOn '/' path.toList
  let body := if isAbsolute path then all.tail else all
  dropIdle (!isAbsolute path) body.reverse

def lastName? (path : String) : Option String := (pieces path).head?.map String.ofList

def parent? (path : String) : Option String :=
  match pieces path with
  | [] => none
  | _ :: before =>
    let body := Text.joinWith '/' (dropIdle (!isAbsolute path) before).reverse
    some (String.ofList (if isAbsolute path then '/' :: body else body))

def upwardsFrom : Nat → String → List String
  | 0, path => [path]
  | steps + 1, path => match parent? path with
    | some parent => path :: upwardsFrom steps parent
    | none => [path]

def upwards (path : String) : List String := upwardsFrom path.length path

end SettingsSweep.Path

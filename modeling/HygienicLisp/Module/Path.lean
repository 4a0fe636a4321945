import HygienicLisp.Error

/-!
# Module paths

A module is identified by an absolute path in canonical form: segments that are
neither empty nor `.` nor `..`, each after a slash.  A path that is written in a
program may be relative to the directory of the module it is written in.
-/

namespace HygienicLisp.ModulePath

/-- The pieces of a text between slashes. -/
def pieces : List Char → List (List Char)
  | [] => [[]]
  | c :: rest =>
    if c = '/' then [] :: pieces rest
    else
      match pieces rest with
      | [] => [[c]]
      | first :: others => (c :: first) :: others

/-- A text without the slashes at its end. -/
def trimSlashes (text : List Char) : List Char :=
  (text.reverse.dropWhile (· = '/')).reverse

/-- The part of a path before its last slash, or the root when nothing is before it. -/
def directory (path : List Char) : List Char :=
  match (path.reverse.dropWhile (· ≠ '/')).drop 1 with
  | [] => ['/']
  | before => before.reverse

/-- Walks along the pieces of a path from a directory, given by its segments, last one
first.  Going up from the root leads nowhere. -/
def walk : List (List Char) → List (List Char) → Option (List (List Char))
  | [], segments => some segments
  | piece :: rest, segments =>
    if piece = [] ∨ piece = ['.'] then walk rest segments
    else if piece = ['.', '.'] then
      match segments with
      | [] => none
      | _ :: up => walk rest up
    else walk rest (piece :: segments)

/-- The absolute path with the given segments. -/
def absolute (segments : List (List Char)) : List Char := segments.flatMap ('/' :: ·)

/-- The absolute form of a path, seen from the directory of the requester. -/
def joined (path : List Char) (requester : Option ModuleId) : List Char :=
  match path with
  | '/' :: _ => path
  | _ =>
    let base := match requester with
      | some id => directory id.path.toList
      | none => ['/']
    trimSlashes base ++ '/' :: path

/-- The module that a path names when it is written in the module `requester`. -/
def normalize (path : String) (requester : Option ModuleId) : Except Error ModuleId :=
  if path.isEmpty then .error (.of (.contract .emptyPath))
  else
    match walk (pieces (joined path.toList requester)) [] with
    | none => .error (.of (.contract (.pathEscapes path)))
    | some [] => .error (.of (.contract (.pathNamesNothing path)))
    | some segments => .ok ⟨String.ofList (absolute segments.reverse)⟩

end HygienicLisp.ModulePath

namespace HygienicLisp

/-- The directory against which relative paths in a module are taken. -/
def ModuleId.directory (id : ModuleId) : String :=
  String.ofList (ModulePath.directory id.path.toList)

end HygienicLisp

/-!
Files as the commands meet them: a path may lead to nothing, to a directory or to a file. A file
tree is a working directory with all that is under it; nothing outside is known.
-/
namespace Calldata

inductive FileError where
  | notFound
  | notDirectory
  | isDirectory
  | notText
  deriving DecidableEq, Repr

def FileError.message : FileError → String
  | .notFound => "No such file or directory (os error 2)"
  | .notDirectory => "Not a directory (os error 20)"
  | .isDirectory => "Is a directory (os error 21)"
  | .notText => "stream did not contain valid UTF-8"

/-- A file that a command was told to read. -/
structure Source where
  path : String
  /-- The same for all paths to one file. -/
  identity : Except FileError String
  content : Except FileError ByteArray

namespace Source

def text (s : Source) : Except FileError String := do
  match String.fromUTF8? (← s.content) with
  | some text => return text
  | none => .error .notText

end Source

inductive FileEntry where
  | file (content : ByteArray)
  | directory

/-- Entries by the names on the way to them; the directories on the way need no entry. -/
structure FileTree where
  entries : List (List String × FileEntry)

namespace FileTree

def empty : FileTree := ⟨[]⟩

def get? (t : FileTree) (place : List String) : Option FileEntry :=
  match t.entries.lookup place with
  | some entry => some entry
  | none =>
    if place = [] ∨ t.entries.any fun e => place.isPrefixOf e.1 then some .directory else none

def set (t : FileTree) (place : List String) (entry : FileEntry) : FileTree :=
  ⟨(place, entry) :: t.entries.filter fun e => e.1 != place⟩

/-- Follows the parts of a path from a place. -/
def follow (t : FileTree) (place : List String) : List String → Except FileError (List String)
  | [] => .ok place
  | part :: rest =>
    match t.get? place with
    | none => .error .notFound
    | some (.file _) => .error .notDirectory
    | some .directory =>
      if part = "" ∨ part = "." then t.follow place rest
      else if part = ".." then
        if place = [] then .error .notFound else t.follow place.dropLast rest
      else
        match t.get? (place ++ [part]) with
        | none => .error .notFound
        | some _ => t.follow (place ++ [part]) rest

/-- The place that a path leads to. -/
def locate (t : FileTree) (path : String) : Except FileError (List String) :=
  if path = "" ∨ path.startsWith "/" then .error .notFound else t.follow [] (path.splitOn "/")

def read (t : FileTree) (path : String) : Except FileError ByteArray := do
  match t.get? (← t.locate path) with
  | some (.file content) => return content
  | some .directory => .error .isDirectory
  | none => .error .notFound

def source (t : FileTree) (path : String) : Source where
  path := path
  identity := (t.locate path).map ("/".intercalate ·)
  content := t.read path

/-- Makes or replaces a file. The directory it is in must exist. -/
def write (t : FileTree) (path : String) (content : ByteArray) : Except FileError FileTree :=
  match t.locate path with
  | .ok place =>
    match t.get? place with
    | some (.file _) => .ok (t.set place (.file content))
    | _ => .error .isDirectory
  | .error .notFound =>
    if path = "" ∨ path.startsWith "/" then .error .notFound
    else
      let parts := (path.splitOn "/").reverse
      match parts.dropWhile (· = "") with
      | [] => .error .notFound
      | name :: parents => do
        let place ← t.follow [] parents.reverse
        if name = "." ∨ name = ".." ∨ (t.get? (place ++ [name])).isSome then .error .notFound
        else if parts.head? = some "" then .error .isDirectory
        else return t.set (place ++ [name]) (.file content)
  | .error e => .error e

end FileTree
end Calldata

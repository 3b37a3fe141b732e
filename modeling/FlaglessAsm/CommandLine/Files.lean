/-!
# Files of a command

Commands read and write files through a pair of functions, in any monad.  A folder in memory is one
way to provide them; the file system is another.

A path is followed part by part.  Every part but the last has to lead to a directory, and so does
the last one if a slash follows it.  The directories above the folder exist, but nothing else is
known about them.

## What is here

* `FileError`: why a file cannot be read or written.
* `FileAccess`: reading and writing.
* `Folder`: a tree of files in memory.
* `Folder.enter`, `Folder.locate`: following a path.
* `Folder.read`, `Folder.write`: the files of a folder.
-/

set_option autoImplicit false

namespace FlaglessAsm
namespace CommandLine

/-! ## Access -/

/-- Why a file cannot be read or written. -/
inductive FileError where
  | notFound
  /-- A part of the path that has to be a directory is a file. -/
  | notDirectory
  | isDirectory
  /-- The path, or a part of it, is too long. -/
  | tooLong
  /-- The bytes of the file are not UTF-8. -/
  | notText
  | other (text : String)
  deriving DecidableEq

/-- The wording of an error. -/
def FileError.message : FileError → String
  | .notFound => "No such file or directory (os error 2)"
  | .notDirectory => "Not a directory (os error 20)"
  | .isDirectory => "Is a directory (os error 21)"
  | .tooLong => "File name too long (os error 36)"
  | .notText => "stream did not contain valid UTF-8"
  | .other text => text

/-- Reading and writing the files at given paths. -/
structure FileAccess (m : Type → Type) where
  read : String → m (Except FileError String)
  write : String → String → m (Except FileError Unit)

/-! ## Folders -/

/-- The parts of a path, from the folder on.  A place above the folder starts with `..`, and one
below the root of the file system with `/`. -/
abbrev Place := List String

/-- The bytes of files, by their places.  A directory exists if a file lies in it. -/
structure Folder where
  files : List (Place × ByteArray) := []

namespace Folder

/-- The parts of a path between its slashes. -/
def parts (path : String) : List String :=
  (path.splitOn "/").filter fun part => !part.isEmpty

/-- The folder with given files. -/
def ofList (files : List (String × ByteArray)) : Folder :=
  ⟨files.map fun (path, bytes) => ((parts path).filter (· != "."), bytes)⟩

/-- The root of the file system. -/
def root : Place := ["/"]

/-- The directory that holds a directory; the root holds itself. -/
def parent (place : Place) : Place :=
  if place = root then root
  else if place.all (· == "..") then place ++ [".."]
  else place.dropLast

/-- Whether a place is a directory. -/
def hasDirectory (folder : Folder) (place : Place) : Bool :=
  place == root || place.all (· == "..")
    || folder.files.any fun (file, _) => place != file && place.isPrefixOf file

/-! ## Paths -/

/-- The most bytes in a part of a path. -/
def maxPart : Nat := 255

/-- The most bytes in a path. -/
def maxPath : Nat := 4095

/-- The place of a name in a directory. -/
def child (directory : Place) (name : String) : Except FileError Place :=
  if maxPart < name.utf8ByteSize then .error .tooLong else .ok (directory ++ [name])

/-- The directory that a part of a path leads to. -/
def enter (folder : Folder) (directory : Place) (part : String) : Except FileError Place :=
  if part = "." then .ok directory
  else if part = ".." then .ok (parent directory)
  else do
    let place ← child directory part
    if (folder.files.lookup place).isSome then throw .notDirectory
    else if folder.hasDirectory place then return place
    else throw .notFound

/-- The directory that all parts of a path but the last lead to, and the last part. -/
def locate (folder : Folder) (path : String) : Except FileError (Place × String) := do
  if maxPath < path.utf8ByteSize then throw .tooLong
  let start := if path.startsWith "/" then root else []
  let directory ← (parts path).dropLast.foldlM folder.enter start
  return (directory, (parts path).getLast?.getD ".")

/-- Whether a last part can only be a directory. -/
def isDots (part : String) : Bool :=
  part == "." || part == ".."

/-! ## Files -/

/-- The text of a file. -/
def read (folder : Folder) (path : String) : Except FileError String := do
  let (directory, name) ← folder.locate path
  if isDots name then throw .isDirectory
  let place ← child directory name
  match folder.files.lookup place with
  | none => throw (if folder.hasDirectory place then .isDirectory else .notFound)
  | some bytes =>
    if path.endsWith "/" then throw .notDirectory
    match String.fromUTF8? bytes with
    | some text => return text
    | none => throw .notText

/-- The folder after a text is written to a file of an existing directory. -/
def write (folder : Folder) (path text : String) : Except FileError Folder := do
  let (directory, name) ← folder.locate path
  if isDots name || path.endsWith "/" then throw .isDirectory
  let place ← child directory name
  if folder.hasDirectory place then throw .isDirectory
  return ⟨(place, text.toUTF8) :: folder.files.filter fun other => other.1 != place⟩

/-- Access to a folder in memory. -/
def access : FileAccess (StateM Folder) where
  read path := return (← get).read path
  write path text := do
    match (← get).write path text with
    | .ok folder =>
      set folder
      return .ok ()
    | .error e => return .error e

end Folder
end CommandLine
end FlaglessAsm

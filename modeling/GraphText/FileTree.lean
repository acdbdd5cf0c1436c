import GraphText.FileSystem

/-!
# Trees of files

A file system held in memory: files and directories by their names from the
root, and a directory that relative paths start from. Paths are followed name
by name, as an operating system follows them: every step leads from a directory
that exists, `..` included, and a path that ends in a slash must end at a
directory. There are no links, so the names that a path leads to are its
canonical path.

The reasons why a file cannot be read are worded as the system words them.

## Main definitions

* `FileTree`: files and directories.
* `FileTree.addFile`, `FileTree.addDirectory`: making them, with all directories above.
* `FileTree.follow`: the place that a path leads to.
* `FileTree.toFileSystem`: the tree as a file system.
-/

namespace GraphText

/-- Names from the root to a file or directory. -/
abbrev Place := List String

/-- Files and directories by their places, and the place of the current directory. -/
structure FileTree where
  current : Place
  files : List (Place × ByteArray) := []
  directories : List Place := []

/-- Why a file cannot be read. -/
inductive FileError where
  | notFound
  | notDirectory
  | isDirectory
  | nameTooLong
  | nulInName
  | notText
  deriving DecidableEq

/-- The wording of the system. -/
def FileError.message : FileError → String
  | notFound => "No such file or directory (os error 2)"
  | notDirectory => "Not a directory (os error 20)"
  | isDirectory => "Is a directory (os error 21)"
  | nameTooLong => "File name too long (os error 36)"
  | nulInName => "file name contained an unexpected NUL byte"
  | notText => "stream did not contain valid UTF-8"

namespace FileTree

/-- Whether there is a directory at a place. The root always is one. -/
def isDirectory (t : FileTree) (place : Place) : Bool :=
  place = [] || t.directories.contains place

/-- Makes a directory and those above it. -/
def addDirectory (t : FileTree) (place : Place) : FileTree :=
  let above := (List.range (place.length + 1)).map place.take
  { t with directories := t.directories ++ above.filter fun dir => !t.isDirectory dir }

/-- Makes a file and the directories above it. -/
def addFile (t : FileTree) (place : Place) (bytes : ByteArray) : FileTree :=
  let t := t.addDirectory place.dropLast
  { t with files := (t.files.filter fun file => file.1 ≠ place) ++ [(place, bytes)] }

/-- The tree that has nothing but a current directory. -/
def empty (current : Place) : FileTree :=
  addDirectory { current } current

/-- The longest name, in bytes. -/
def maxNameBytes : Nat := 255

/-- The first length in bytes that no path may have. -/
def maxPathBytes : Nat := 4096

/-- One step of a path, from a place that exists. -/
def enter (t : FileTree) (place : Place) (piece : List Char) : Except FileError Place :=
  -- Every step leads from a directory, even one that stays where it is.
  if !t.isDirectory place then .error .notDirectory
  else if piece = [] ∨ piece = ['.'] then .ok place
  else if piece = ['.', '.'] then .ok place.dropLast
  else
    let name := String.ofList piece
    let next := place ++ [name]
    if maxNameBytes < name.utf8ByteSize then .error .nameTooLong
    else if t.isDirectory next ∨ t.files.any (fun file => file.1 = next) then .ok next
    else .error .notFound

/-- The place that a path leads to. -/
def follow (t : FileTree) (path : Path) : Except FileError Place :=
  if path.text.toList.contains '\x00' then .error .nulInName
  else if path.text = "" then .error .notFound
  else if maxPathBytes ≤ path.text.utf8ByteSize then .error .nameTooLong
  else
    (Text.pieces '/' path.text.toList).foldlM t.enter (if path.isAbsolute then [] else t.current)

/-- The bytes of a file. -/
def bytes (t : FileTree) (path : Path) : Except FileError ByteArray := do
  let place ← t.follow path
  match t.files.find? fun file => file.1 = place with
  | some file => .ok file.2
  | none => .error .isDirectory

/-- The text of a file. -/
def text (t : FileTree) (path : Path) : Except FileError String := do
  match String.fromUTF8? (← t.bytes path) with
  | some text => .ok text
  | none => .error .notText

/-- The path of a place from the root. -/
def pathOf (place : Place) : Path :=
  ⟨"/" ++ String.intercalate "/" place⟩

/-- The place that a path of names leads to if every directory on the way is made. -/
def placeOf (t : FileTree) (path : Path) : Place :=
  (Text.pieces '/' path.text.toList).foldl (fun place piece =>
    if piece = [] ∨ piece = ['.'] then place
    else if piece = ['.', '.'] then place.dropLast
    else place ++ [String.ofList piece]) (if path.isAbsolute then [] else t.current)

/-- The tree as a file system. -/
def toFileSystem (t : FileTree) : FileSystem where
  canonical? path := (t.follow path).toOption.map pathOf
  read path := (t.text path).mapError FileError.message

end FileTree

end GraphText

import GraphText.Text.Pieces

/-!
# Paths

A path keeps the spelling it was written with, because messages and include
edges show it. Two spellings are the same path if they have the same
components: repeated and closing slashes and every `.` but a leading one carry
no meaning, while `..` is never resolved here, since what it leads to depends
on the files.

The order of paths is the order of their components, which puts the root
before a leading `.`, that before `..`, and that before every name; names are
ordered by code points.

## Main definitions

* `Path.components`: what a path means.
* `Path.same`: whether two spellings are one path.
* `Path.join`: a path as seen from a directory.
* `Path.parent?`: the directory of a path, spelled as in the path.

## Theorems

* `Path.same_iff`: sameness is equality of components.
* `Path.join_absolute`: an absolute path is the same from everywhere.
-/

namespace GraphText

/-- A path, as it is spelled. -/
structure Path where
  text : String
  deriving DecidableEq

namespace Path

/-- One step of a path. -/
inductive Component where
  | root
  /-- the leading `.` of a path such as `./a` -/
  | here
  | up
  | name (text : String)
  deriving DecidableEq

namespace Component

/-- The place of the kinds of components in the order. -/
def rank : Component → Nat
  | root => 0
  | here => 1
  | up => 2
  | name _ => 3

/-- The name of a component that is one. -/
def label : Component → String
  | name text => text
  | _ => ""

instance : Ord Component :=
  ⟨compareLex (compareOn rank) (compareOn label)⟩

/-- A component other than the root, from its spelling. -/
def ofPiece (piece : List Char) : Component :=
  if piece = ['.', '.'] then up else name (String.ofList piece)

end Component

/-- The leading slash or dot that means a component of its own, and the rest. -/
def splitHead : List Char → List Char × List Char
  | '/' :: cs => (['/'], cs)
  | ['.'] => (['.'], [])
  | '.' :: '/' :: cs => (['.'], '/' :: cs)
  | cs => ([], cs)

/-- Whether a piece between slashes means anything. -/
def isSignificant (piece : List Char) : Bool :=
  piece ≠ [] && piece ≠ ['.']

/-- What a path means, step by step. -/
def components (p : Path) : List Component :=
  let (head, body) := splitHead p.text.toList
  let first : List Component :=
    if head = ['/'] then [.root] else if head = ['.'] then [.here] else []
  first ++ ((Text.pieces '/' body).filter isSignificant).map Component.ofPiece

/-- Whether two spellings are the same path. -/
def same (p q : Path) : Bool :=
  p.components == q.components

theorem same_iff {p q : Path} : p.same q = true ↔ p.components = q.components := by
  simp [same]

instance : Ord Path :=
  ⟨compareOn components⟩

/-- Whether a path starts at the root. -/
def isAbsolute (p : Path) : Bool :=
  p.text.toList.head? = some '/'

/-- The path `p` as seen from the directory `dir`: both spellings with one slash between them,
    unless `p` is absolute or `dir` is empty or already ends in a slash. -/
def join (dir p : Path) : Path :=
  if p.isAbsolute then p
  else
    let left := dir.text.toList
    if left = [] ∨ left.getLast? = some '/' then ⟨dir.text ++ p.text⟩
    else ⟨dir.text ++ "/" ++ p.text⟩

theorem join_absolute {dir p : Path} (h : p.isAbsolute = true) : dir.join p = p := by
  simp [join, h]

/-- The spelling of a path without its last component: nothing if there is no component to take
    away, or only the root. -/
def parent? (p : Path) : Option Path :=
  let (head, body) := splitHead p.text.toList
  let backwards := ((Text.pieces '/' body).reverse.dropWhile fun piece => !isSignificant piece)
  match backwards with
  -- The leading `.` is a component that can be taken away, the root is not.
  | [] => if head = ['.'] then some ⟨""⟩ else none
  | _ :: before =>
    let kept := (before.dropWhile fun piece => !isSignificant piece).reverse
    some ⟨String.ofList (head ++ Text.joined '/' kept)⟩

/-- The directory that relative paths in a file are seen from. -/
def directory (p : Path) : Path :=
  match p.parent? with
  | some dir => if dir.text = "" then ⟨"."⟩ else dir
  | none => ⟨"."⟩

end Path

end GraphText

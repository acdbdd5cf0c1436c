import GraphText.Path

/-!
# Include dependencies

Reading a document yields an edge for every include in it and below it. A
dependency index collects the edges of many documents and answers which files
have to be read again when one has changed: those that include it, directly or
through others. Paths are compared by what they mean, and the first spelling of
an edge is the one that is kept.

The search goes from a file to its includers, those of one file in ascending
order, taking the last found first. Which files it finds does not depend on
that order, but which of two spellings of a file is shown does.

## Main definitions

* `Dependency`: one include, from the including to the included file.
* `DependencyIndex.record`, `DependencyIndex.forget`: adding and dropping edges.
* `DependencyIndex.affectedBy`: the files to be read again.
-/

namespace GraphText

/-- An include: the file it stands in and the file it names. -/
structure Dependency where
  including : Path
  included : Path
  deriving DecidableEq

namespace Dependency

/-- Whether two edges are between the same files. -/
def same (d e : Dependency) : Bool :=
  d.including.same e.including && d.included.same e.included

end Dependency

namespace Path

/-- Whether a list of paths has this one in some spelling. -/
def isIn (p : Path) (paths : List Path) : Bool :=
  paths.any p.same

/-- Paths in ascending order. -/
def sorted (paths : List Path) : List Path :=
  paths.mergeSort fun p q => (compare p q).isLE

end Path

/-- The recorded edges, no two between the same files. -/
structure DependencyIndex where
  edges : List Dependency
  deriving DecidableEq

namespace DependencyIndex

/-- The index without edges. -/
def empty : DependencyIndex := ⟨[]⟩

/-- Adds an edge, unless there is one between the same files. -/
def record (index : DependencyIndex) (edge : Dependency) : DependencyIndex :=
  if index.edges.any edge.same then index else ⟨index.edges ++ [edge]⟩

/-- Adds edges in order. -/
def recordAll (index : DependencyIndex) (edges : List Dependency) : DependencyIndex :=
  edges.foldl record index

/-- Drops the edges of the includes in a file. -/
def forget (index : DependencyIndex) (path : Path) : DependencyIndex :=
  ⟨index.edges.filter fun edge => !edge.including.same path⟩

/-- The files that include a file directly, in ascending order. -/
def includers (index : DependencyIndex) (path : Path) : List Path :=
  Path.sorted ((index.edges.filter fun edge => edge.included.same path).map Dependency.including)

/-- Adds those of some files that have not been found, in order, to the found and to the pending
    ones. -/
def discover : List Path → List Path → List Path → List Path × List Path
  | [], found, pending => (found, pending)
  | p :: ps, found, pending =>
    if p.isIn found then discover ps found pending
    -- The file found last is the next one to be searched from.
    else discover ps (found ++ [p]) (p :: pending)

/-- Searches on from the pending files for at most this many rounds. -/
def search (index : DependencyIndex) : Nat → List Path → List Path → List Path
  | 0, found, _ => found
  | _, found, [] => found
  | n + 1, found, current :: pending =>
    let (found, pending) := discover (index.includers current) found pending
    search index n found pending

/-- The files that include a file directly or through others, in ascending order. Every round of the
    search but the first starts from a file found in an earlier one, and every file found is the
    including file of an edge, which bounds the rounds. -/
def affectedBy (index : DependencyIndex) (path : Path) : List Path :=
  Path.sorted (index.search (index.edges.length + 1) [] [path])

end DependencyIndex

end GraphText

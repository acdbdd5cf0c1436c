import GraphText.Dependency
import GraphText.Options
import GraphText.Reader.TokenStream
import GraphText.Registry
import GraphText.Scope

/-!
# States of a reader

A reader is a machine with a stack. It looks at one token at a time, and all it
knows of what came before is in its state: the heap with the objects read so
far, the bodies that are open in the document it is in, the documents that wait
for an include, and the mode, which says what may stand next.

An object under construction is in the heap already. What belongs to it and not
to the heap is in the entry of its body: the fields it may have, and the target
that the object goes to when its body ends. Every object that is not the whole
document has such a target in the innermost open body.

A document waits for an include with the place and the target of the include,
and with the key of the file that is read meanwhile. So the files that are open
are those that something waits for, and the file at the bottom if the reading
started with a file.

## Main definitions

* `Target`: where an object goes.
* `Mode`: what may stand next.
* `Body`, `Context`: an open body, and all that changes within a document.
* `Document`, `Waiting`: a document being read, and one that waits.
* `State`: a state of the reader.
-/

namespace GraphText.Reader

/-- Where an object goes when it has been read. -/
inductive Target where
  /-- it is the whole document -/
  | root
  /-- it is a template of the innermost body -/
  | template
  /-- it is the value, starting at `start`, of a field of the innermost body -/
  | field (field : FieldSpec) (start : Position)
  /-- it is the element, starting at `first`, of a list of objects behind those of `before` -/
  | element (field : FieldSpec) (start first : Position) (before : List Ref)
  deriving DecidableEq

/-- What may stand next. -/
inductive Mode where
  | object (target : Target)
  /-- behind `USE` -/
  | used (target : Target)
  /-- behind a type name at `start` -/
  | typed (spec : ObjectSpec) (start : Position) (target : Target)
  /-- behind a type name at `start` and a name -/
  | named (spec : ObjectSpec) (start : Position) (name : String) (target : Target)
  /-- behind `CLONE` at `start` -/
  | cloning (start : Position) (target : Target)
  /-- behind `CLONE` at `start` and the name of a template at `sourceStart` -/
  | cloningFrom (start : Position) (source : String) (sourceStart : Position) (target : Target)
  /-- behind `CLONE` at `start` and both names, with the copy made -/
  | cloned (copy : Ref) (start : Position) (target : Target)
  /-- behind `<` at `start` -/
  | including (start : Position) (target : Target)
  /-- behind `<` at `start` and a path -/
  | includingPath (start : Position) (path : String) (target : Target)
  /-- at the beginning of a body, or behind a comma in it -/
  | item
  /-- behind a block or field of a body -/
  | itemEnd
  | constantsColon
  | constantsOpen
  | constant
  | constantColon (name : String)
  | constantValue (name : String)
  | constantEnd
  | templatesColon
  | templatesOpen
  | template
  | templateEnd
  | fieldColon (field : FieldSpec)
  | fieldValue (field : FieldSpec)
  /-- among the scalars of a field without brackets: how many more, and those read -/
  | scalar (field : FieldSpec) (type : ScalarType) (start : Position) (more : Nat)
      (before : List Value)
  | listItem (field : FieldSpec) (type : ScalarType) (start : Position) (before : List Value)
  | listEnd (field : FieldSpec) (type : ScalarType) (start : Position) (before : List Value)
  | element (field : FieldSpec) (start : Position) (before : List Ref)
  | elementEnd (field : FieldSpec) (start : Position) (before : List Ref)
  /-- behind the object of the document -/
  | finished (root : Ref)
  deriving DecidableEq

/-- An open body: its object, which was met at `start`, the type of the object, where the object
    goes, and whether a field has been read. -/
structure Body where
  object : Ref
  spec : ObjectSpec
  start : Position
  target : Target
  seenField : Bool := false
  deriving DecidableEq

/-- All that changes while a document is read, except what is left of it. -/
structure Context where
  scopes : Scopes := {}
  bodies : List Body := []
  mode : Mode := .object .root
  deriving DecidableEq

/-- A document being read: what it is called, the directory its includes start from, what is left of
    it, and what has become of the rest. -/
structure Document where
  source : Path
  directory : Path
  tokens : TokenStream
  context : Context := {}
  deriving DecidableEq

namespace Document

/-- The beginning of a document. -/
def ofText (source directory : Path) (text : String) : Document :=
  { source, directory, tokens := .ofText text }

/-- The location of a position in a document. -/
def locate (doc : Document) (p : Position) : Location := ⟨doc.source, p⟩

end Document

/-- A document that waits for an include at `start`, whose object goes to `target` and whose file is
    known by `file`. -/
structure Waiting where
  document : Document
  start : Position
  target : Target
  file : Path
  deriving DecidableEq

/-- A state of the reader: the objects, the includes met so far, the document being read, and the
    documents that wait, the innermost first. -/
structure State where
  heap : Heap
  dependencies : List Dependency
  document : Document
  waiting : List Waiting := []
  /-- the file that reading started with, if it was one -/
  rootFile : Option Path := none
  deriving DecidableEq

/-- The keys of the files being read, the innermost first. -/
def State.openFiles (s : State) : List Path :=
  s.waiting.map Waiting.file ++ s.rootFile.toList

/-- What reading yields: the objects, the one of the document, and the includes in the order in
    which they were met. -/
structure Output where
  heap : Heap
  root : Ref
  dependencies : List Dependency
  deriving DecidableEq

end GraphText.Reader

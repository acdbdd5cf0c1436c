import GraphText.Heap.Preorder

/-!
# Surveys of graphs

Before a graph is written, a survey settles by which name each object is
written. An object that is met more than once is written in full where it is
met first and by name everywhere else, so it needs a name that no other object
of the graph has. It keeps its own if that is so, and otherwise gets a new one,
made from its own name or, if it has none, from its type. An object that is met
once keeps what it has.

New names end in a number, the least one that makes a name that is not taken.
Names that objects of the graph have are taken from the start, whether or not
the objects keep them.

## Main definitions

* `freshName`: the name for a base that is not taken.
* `chooseNames`: the names of objects, in order.
* `Survey.ofRoots`: the survey of a graph.
-/

namespace GraphText.Writer

/-- A base with a number. -/
def numbered (base : String) (n : Nat) : String :=
  base ++ "_" ++ toString n

/-- The base with the least number from one upwards that makes a name that is not taken. Of one name
    more than are taken, one is not. -/
def freshName (base : String) (taken : List String) : String :=
  let candidates := (List.range (taken.length + 1)).map fun n => numbered base (n + 1)
  (candidates.find? fun name => !taken.contains name).getD (numbered base 1)

/-- The names of objects of a graph: which are met more than once, how many objects have a name, and
    which names are taken. -/
def chooseNames (h : Heap) (isShared : Ref → Bool) (owners : String → Nat) :
    List String → List Ref → List (Ref × String)
  | _, [] => []
  | taken, r :: rest =>
    let keep (name : String) := (r, name) :: chooseNames h isShared owners taken rest
    let replace (base : String) :=
      let name := freshName base taken
      (r, name) :: chooseNames h isShared owners (name :: taken) rest
    match (h.get r).name, isShared r with
    -- An object that is met once is never looked up, so its name may be another's too.
    | some name, true => if owners name = 1 then keep name else replace name
    | some name, false => keep name
    | none, true => replace (h.get r).typeName
    | none, false => chooseNames h isShared owners taken rest

/-- The objects of a graph in the order in which they are met first, and the names by which they are
    written. -/
structure Survey where
  order : List Ref
  names : List (Ref × String)

namespace Survey

/-- The name by which an object is written, if it has one. -/
def name? (s : Survey) (r : Ref) : Option String :=
  s.names.lookup r

/-- The survey of the objects below some roots, which must be of registered types. -/
def ofRoots (reg : Registry) (h : Heap) (roots : List Ref) : Except Cause Survey := do
  let arrivals := h.arrivals reg.visibleOf roots
  let order := arrivals.eraseDups
  order.forM fun r => do
    let _ ← reg.lookup (h.get r).typeName
  let named := order.filterMap fun r => (h.get r).name
  .ok
    { order
      names := chooseNames h (fun r => 1 < arrivals.count r) named.count named.eraseDups order }

end Survey

end GraphText.Writer

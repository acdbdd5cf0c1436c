import GraphText.Heap.Preorder

/-!
# Copying objects

A copy is a new object of the same type with the same name and place, marked as
a copy, and with every field that was set. A shallow copy refers to the very
objects that the source refers to. A deep copy copies them too, each once, so
that the copies share exactly where the source shares, cycles included.

The copies of a deep copy are put behind the heap in the order of the walk, so
the new number of an object is known before anything is copied: the old size of
the heap and the place of the object in the walk. That is what lets cyclic
graphs be copied without a table of unfinished copies.

## Main definitions

* `Heap.copyOf`: the copy of one object, with references replaced.
* `Heap.deepCopy`, `Heap.shallowCopy`: copying below and at an object.
* `Heap.copy`: either.
-/

namespace GraphText

namespace Heap

/-- The copy of an object of this type, with its references replaced. -/
def copyOf (spec : ObjectSpec) (i : Instance) (move : Ref → Ref) : Except Cause Instance :=
  spec.fields.foldlM (fun copy field =>
    match i.fetch? field with
    | none => .ok copy
    | some vs => copy.store field (vs.map (Value.mapRefs move)))
    { spec.create with name := i.name, location := i.location, isClone := true }

/-- The copies of some objects, which must be of registered types. -/
def copies (reg : Registry) (h : Heap) (move : Ref → Ref) (rs : List Ref) :
    Except Cause (List Instance) :=
  rs.mapM fun r => do
    let i := h.get r
    let spec ← reg.lookup i.typeName
    copyOf spec i move

/-- The heap with some more objects. -/
def append (h : Heap) (is : List Instance) : Heap :=
  ⟨h.instances ++ is.toArray⟩

/-- Copies everything that can be reached from an object, hidden fields included. The copy of the
    object itself is the first new one. -/
def deepCopy (reg : Registry) (h : Heap) (root : Ref) : Except Cause Heap := do
  -- The root is the first on its walk, and so gets the first new number.
  let order := h.preorder reg.fieldsOf [root]
  let new ← h.copies reg (fun r => h.size + order.idxOf r) order
  .ok (h.append new)

/-- Copies an object alone. -/
def shallowCopy (reg : Registry) (h : Heap) (root : Ref) : Except Cause Heap := do
  let new ← h.copies reg id [root]
  .ok (h.append new)

/-- Copies an object: the new heap and the number of the copy. -/
def copy (reg : Registry) (h : Heap) (root : Ref) (deep : Bool) : Except Cause (Heap × Ref) :=
  (if deep then h.deepCopy reg root else h.shallowCopy reg root).map fun new => (new, h.size)

end Heap

end GraphText

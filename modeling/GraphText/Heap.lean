import GraphText.Field

/-!
# Objects and heaps

An object has a type and perhaps a name, remembers where it was defined and
whether it is a copy, and keeps the contents of the fields that were stored.
Objects live in a heap and refer to each other by number. Nothing is ever taken
out of a heap, so a reference stays good; a number that was never given out
refers to an object of the empty type without fields.

Heaps are values: whoever keeps the old heap keeps all the old objects, which
is how a failing operation leaves no trace.

## Main definitions

* `Instance`: an object.
* `Instance.store`, `Instance.fetch?`: setting and reading a field.
* `Heap`: objects by number.
* `Heap.alloc`, `Heap.modify`: adding and changing an object.

## Theorems

* `Heap.get_alloc`, `Heap.get_modify`: what the operations do to every object.
-/

namespace GraphText

/-- An object. -/
structure Instance where
  typeName : String
  name : Option String := none
  /-- whether it was made by copying -/
  isClone : Bool := false
  /-- where it was defined, for objects read from a text -/
  location : Option Location := none
  slots : Table Content := .empty
  deriving DecidableEq

namespace Instance

instance : Inhabited Instance := ⟨{ typeName := "" }⟩

/-- The object under a new name; the empty name leaves it without one. -/
def withName (i : Instance) (name : String) : Instance :=
  { i with name := if name = "" then none else some name }

/-- The values of a field, if it was stored. -/
def fetch? (i : Instance) (field : FieldSpec) : Option (List Value) :=
  (i.slots.find? field.name).bind field.kind.fetch?

/-- The object with these values in a field. -/
def store (i : Instance) (field : FieldSpec) (vs : List Value) : Except Cause Instance :=
  (field.kind.store? field.name vs).map fun content =>
    { i with slots := i.slots.insert field.name content }

/-- The type, and the name if there is one. -/
def describe (i : Instance) : String :=
  match i.name with
  | some name => i.typeName ++ " \"" ++ name ++ "\""
  | none => i.typeName

end Instance

/-- Objects by number. -/
structure Heap where
  instances : Array Instance
  deriving DecidableEq

namespace Heap

/-- The heap without objects. -/
def empty : Heap := ⟨#[]⟩

instance : Inhabited Heap := ⟨empty⟩

/-- The number of objects, which is the next number to be given out. -/
def size (h : Heap) : Nat := h.instances.size

/-- The object with this number. -/
def get (h : Heap) (r : Ref) : Instance := h.instances.getD r default

/-- Adds an object, whose number is the size that the heap had. -/
def alloc (h : Heap) (i : Instance) : Heap := ⟨h.instances.push i⟩

/-- Changes an object. -/
def modify (h : Heap) (r : Ref) (f : Instance → Instance) : Heap := ⟨h.instances.modify r f⟩

/-- Replaces an object. -/
def set (h : Heap) (r : Ref) (i : Instance) : Heap := h.modify r fun _ => i

/-- Sets a field of an object. -/
def store (h : Heap) (r : Ref) (field : FieldSpec) (vs : List Value) : Except Cause Heap :=
  ((h.get r).store field vs).map (h.set r)

@[simp] theorem size_alloc (h : Heap) (i : Instance) : (h.alloc i).size = h.size + 1 := by
  simp [alloc, size]

@[simp] theorem size_modify (h : Heap) (r : Ref) (f : Instance → Instance) :
    (h.modify r f).size = h.size := by
  simp [modify, size]

theorem get_of_size_le {h : Heap} {r : Ref} (hr : h.size ≤ r) : h.get r = default := by
  simp only [size] at hr
  simp [get, Array.getD_eq_getD_getElem?, hr]

theorem get_alloc (h : Heap) (i : Instance) (r : Ref) :
    (h.alloc i).get r = if r = h.size then i else h.get r := by
  simp only [get, alloc, size, Array.getD_eq_getD_getElem?, Array.getElem?_push]
  split <;> simp_all

theorem get_modify (h : Heap) (r : Ref) (f : Instance → Instance) (s : Ref) :
    (h.modify r f).get s = if s = r ∧ r < h.size then f (h.get s) else h.get s := by
  simp only [get, modify, size, Array.getD_eq_getD_getElem?, Array.getElem?_modify]
  by_cases hs : s = r
  · subst hs
    by_cases hlt : s < h.instances.size
    · simp [hlt]
    · simp [hlt]
  · simp [hs, Ne.symm hs]

end Heap

end GraphText

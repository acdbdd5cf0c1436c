import GraphText.Heap.Copy

/-!
# Pools of objects

A pool hands out deep copies of prototypes, one prototype for each type, and
takes objects back to hand them out again. An object that was given back is
preferred to a new copy, the last one given back first, and keeps what has been
done to it; a new copy is named by its type and a number that counts the copies
of the prototype.

The pool believes what it is told: it neither knows whom an object was handed
out to nor looks at what is given back, except for its type.

## Main definitions

* `Pool`: the prototypes and the objects that wait.
* `Pool.addPrototype`, `Pool.acquire`, `Pool.release`: what a pool does.
-/

namespace GraphText

/-- An object that is copied, and how many copies have been made. -/
structure Prototype where
  object : Ref
  created : Nat := 0
  deriving DecidableEq

/-- The prototypes by type, and the objects of each type that wait, the last given back first. -/
structure Pool where
  prototypes : Table Prototype := .empty
  waiting : Table (List Ref) := .empty
  deriving DecidableEq

namespace Pool

/-- The pool without anything. -/
def empty : Pool := {}

/-- Makes an object the prototype of its type. -/
def addPrototype (pool : Pool) (h : Heap) (r : Ref) : Pool :=
  { pool with prototypes := pool.prototypes.insert (h.get r).typeName { object := r } }

/-- Whether a type has a prototype. -/
def hasPrototype (pool : Pool) (typeName : String) : Bool :=
  pool.prototypes.contains typeName

/-- The objects of a type that wait. -/
def waitingFor (pool : Pool) (typeName : String) : List Ref :=
  (pool.waiting.find? typeName).getD []

/-- The name of the next copy of a prototype of a type. -/
def copyName (typeName : String) (created : Nat) : String :=
  typeName ++ "_" ++ toString created

/-- Hands out an object of a type: one that waits, or a new copy of the prototype. -/
def acquire (pool : Pool) (reg : Registry) (h : Heap) (typeName : String) :
    Except Cause (Pool × Heap × Ref) :=
  match pool.waitingFor typeName with
  | r :: rest => .ok ({ pool with waiting := pool.waiting.insert typeName rest }, h, r)
  | [] =>
    match pool.prototypes.find? typeName with
    | none => .error (.noPrototype typeName)
    | some prototype => do
      let (h, r) ← h.copy reg prototype.object true
      let h := h.modify r fun i => i.withName (copyName typeName prototype.created)
      let counted := { prototype with created := prototype.created + 1 }
      .ok ({ pool with prototypes := pool.prototypes.insert typeName counted }, h, r)

/-- Takes an object back. -/
def release (pool : Pool) (h : Heap) (r : Ref) : Pool :=
  let typeName := (h.get r).typeName
  { pool with waiting := pool.waiting.insert typeName (r :: pool.waitingFor typeName) }

end Pool

end GraphText

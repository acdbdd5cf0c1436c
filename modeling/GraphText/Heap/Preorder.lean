import GraphText.Registry

/-!
# Walking a heap

Everything that looks at a whole graph sees it in one order: an object first,
then, for each of its fields in turn, the objects in that field from left to
right. A graph may share objects and may contain cycles, so an object is walked
below only where it is met first. The walk lists every arrival, the repeated
ones too: how often an object is met is what decides whether it needs a name.

The walk ends because each object is walked below once; what bounds it is the
number of objects in the heap that have not been met.

## Main definitions

* `Heap.children`: the objects that an object refers to through some fields.
* `Heap.arrivals`: the objects met on the walk, in order, with repetitions.
* `Heap.preorder`: the objects met on the walk, each where it is met first.

## Theorems

* `unmet_cons_lt`: meeting an object leaves fewer unmet.
-/

namespace GraphText

namespace Registry

/-- All fields of an object, or none if its type is not registered. -/
def fieldsOf (reg : Registry) (i : Instance) : List FieldSpec :=
  match reg.find? i.typeName with
  | some spec => spec.fields
  | none => []

/-- The fields of an object that are written. -/
def visibleOf (reg : Registry) (i : Instance) : List FieldSpec :=
  (reg.fieldsOf i).filter fun field => !field.hidden

/-- Which fields an object has depends on its type only. -/
theorem visibleOf_congr (reg : Registry) {i j : Instance} (h : i.typeName = j.typeName) :
    reg.visibleOf i = reg.visibleOf j := by
  rw [visibleOf, visibleOf, fieldsOf, fieldsOf, h]

end Registry

namespace Heap

/-- The objects that an object refers to through these fields, in order. -/
def children (h : Heap) (fields : Instance → List FieldSpec) (r : Ref) : List Ref :=
  (fields (h.get r)).flatMap fun field =>
    (((h.get r).fetch? field).getD []).flatMap Value.refs

/-- How many of the numbers below `size` have not been met. -/
def unmet (size : Nat) (met : List Ref) : Nat :=
  ((List.range size).filter fun r => !met.contains r).length

/-- Meeting one of some objects leaves fewer of them. -/
theorem length_filter_cons_lt {all met : List Ref} {r : Ref} (hr : r ∈ all)
    (hmet : met.contains r = false) :
    (all.filter fun s => !(r :: met).contains s).length <
      (all.filter fun s => !met.contains s).length := by
  have hsplit : (all.filter fun s => !(r :: met).contains s) =
      (all.filter fun s => !met.contains s).filter fun s => s != r := by
    rw [List.filter_filter]
    apply List.filter_congr
    intro s _
    simp only [List.contains_cons, Bool.not_or, bne]
  rw [hsplit]
  refine List.length_filter_lt_length_iff_exists.2 ⟨r, ?_, by simp⟩
  rw [List.mem_filter, hmet]
  exact ⟨hr, rfl⟩

theorem unmet_cons_lt {size : Nat} {met : List Ref} {r : Ref} (hr : r < size)
    (hmet : met.contains r = false) : unmet size (r :: met) < unmet size met :=
  length_filter_cons_lt (List.mem_range.2 hr) hmet

/-- The objects met on the walk from the pending ones, having met some already. Numbers that are not
    in the heap are met as objects without fields. -/
def arrivalsFrom (size : Nat) (next : Ref → List Ref) (met : List Ref) : List Ref → List Ref
  | [] => []
  | r :: pending =>
    if _new : r < size ∧ met.contains r = false then
      r :: arrivalsFrom size next (r :: met) (next r ++ pending)
    else r :: arrivalsFrom size next met pending
termination_by pending => (unmet size met, pending.length)
decreasing_by
  · exact Prod.Lex.left _ _ (unmet_cons_lt _new.1 _new.2)
  · exact Prod.Lex.right _ (by simp)

/-- The objects met on the walk below `roots` through these fields, in order, with repetitions. -/
def arrivals (h : Heap) (fields : Instance → List FieldSpec) (roots : List Ref) : List Ref :=
  arrivalsFrom h.size (h.children fields) [] roots

/-- The objects met on the walk, each where it is met first. -/
def preorder (h : Heap) (fields : Instance → List FieldSpec) (roots : List Ref) : List Ref :=
  (h.arrivals fields roots).eraseDups

end Heap

end GraphText

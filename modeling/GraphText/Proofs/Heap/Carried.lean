import GraphText.Heap.Copy
import GraphText.Proofs.Heap.Renamed

/-!
# Heaps carried elsewhere

A heap can be put behind another one, where its objects get other numbers, or be
told that its objects were met at other positions. Whatever is then done to the
objects is done as it was: creating, changing, storing and copying give the
result that they gave, carried to the same place, and fail alike.

What makes a heap so is not how it was carried. It is enough that every object
is found again under its new number, that free numbers go to free numbers, and
that objects are added and changed as before. All that is asked of a carrier is
this, and everything else that is done to heaps follows.

None of this needs the references to be good. A number beyond the heap refers to
an object without fields, and so does the number that it becomes.

## Main definitions

* `Instance.carried`: an object with other references, met at another position.
* `Carrier`: a way of carrying heaps.
* `Heap.moved`, `Carrier.moved`: heaps whose objects were met at other positions.

## Theorems

* `Carrier.alloc`, `Carrier.store`, `Carrier.copy`: the operations on heaps that
  were carried.
-/

namespace GraphText

/-- The location with another position. -/
def Location.moved (g : Position → Position) (l : Location) : Location :=
  { l with position := g l.position }

namespace Instance

/-- The object, met at another position. -/
def moved (g : Position → Position) (i : Instance) : Instance :=
  { i with location := i.location.map (Location.moved g) }

/-- The object with other references, met at another position. -/
def carried (f : Ref → Ref) (g : Position → Position) (i : Instance) : Instance :=
  (i.moved g).mapRefs f

variable {f : Ref → Ref} {g : Position → Position}

theorem moved_id (i : Instance) : i.moved id = i := by
  rcases i with ⟨typeName, name, isClone, location, slots⟩
  cases location <;> rfl

theorem mapRefs_id (i : Instance) : i.mapRefs id = i := by
  rcases i with ⟨typeName, name, isClone, location, slots⟩
  simp [mapRefs, Table.map, funext Content.mapRefs_id]

theorem carried_id_place : carried f id = mapRefs f := by
  funext i
  rw [carried, moved_id]

theorem carried_id_ref : carried id g = moved g := by
  funext i
  rw [carried, mapRefs_id]

theorem fetch?_carried (i : Instance) (field : FieldSpec) :
    (i.carried f g).fetch? field = (i.fetch? field).map (List.map (Value.mapRefs f)) :=
  fetch?_mapRefs (i.moved g) field

theorem store_carried (i : Instance) (field : FieldSpec) (vs : List Value) :
    (i.carried f g).store field (vs.map (Value.mapRefs f)) =
      (i.store field vs).map (carried f g) := by
  rw [carried, store_mapRefs]
  unfold store moved
  cases field.kind.store? field.name vs <;> rfl

end Instance

namespace Heap

theorem foldlM_map {ε α β : Type} {p : β → β} {f g : β → α → Except ε β}
    (hfg : ∀ b a, g (p b) a = (f b a).map p) (as : List α) (b : β) :
    as.foldlM g (p b) = (as.foldlM f b).map p := by
  induction as generalizing b with
  | nil => rfl
  | cons a as ih =>
      rw [List.foldlM_cons, List.foldlM_cons, hfg]
      cases f b a with
      | error e => rfl
      | ok c => exact ih c

theorem mapM_map {ε α α' β β' : Type} {p : α → α'} {q : β → β'} {f : α → Except ε β}
    {g : α' → Except ε β'} (hfg : ∀ a, g (p a) = (f a).map q) (as : List α) :
    (as.map p).mapM g = (as.mapM f).map (List.map q) := by
  induction as with
  | nil => rfl
  | cons a as ih =>
      rw [List.map_cons, List.mapM_cons, List.mapM_cons, hfg, ih]
      cases f a with
      | error e => rfl
      | ok b => cases as.mapM f <;> rfl

theorem alloc_eq_append (h : Heap) (i : Instance) : h.alloc i = h.append [i] := by
  rw [alloc, append, Array.push_eq_append]

/-- The copy of an object that was carried, when what it refers to moves accordingly. -/
theorem copyOf_carried {f move move' : Ref → Ref} {g : Position → Position}
    (hmove : ∀ r, move' (f r) = f (move r)) (spec : ObjectSpec) (i : Instance) :
    copyOf spec (i.carried f g) move' = (copyOf spec i move).map (Instance.carried f g) := by
  have hvalues : ∀ vs : List Value, (vs.map (Value.mapRefs f)).map (Value.mapRefs move') =
      (vs.map (Value.mapRefs move)).map (Value.mapRefs f) := by
    intro vs
    have hcomp : move' ∘ f = f ∘ move := funext hmove
    simp [Value.mapRefs_mapRefs, hcomp]
  refine foldlM_map (p := Instance.carried f g) (fun copy field => ?_) spec.fields
    { spec.create with name := i.name, location := i.location, isClone := true }
  rw [Instance.fetch?_carried]
  cases i.fetch? field with
  | none => rfl
  | some vs =>
      simp only [Option.map_some]
      rw [hvalues, Instance.store_carried]

end Heap

/-- A way of carrying every heap elsewhere, where objects have other numbers and positions. -/
structure Carrier where
  heap : Heap → Heap
  ref : Ref → Ref
  place : Position → Position
  ref_injective : ∀ r s, ref r = ref s → r = s
  /-- The free numbers are those that free numbers become. -/
  size_add : ∀ (h : Heap) (n : Nat), (heap h).size + n = ref (h.size + n)
  get : ∀ (h : Heap) (r : Ref), (heap h).get (ref r) = (h.get r).carried ref place
  append : ∀ (h : Heap) (is : List Instance),
    (heap h).append (is.map (Instance.carried ref place)) = heap (h.append is)
  modify : ∀ {f f' : Instance → Instance},
    (∀ i : Instance, f' (i.carried ref place) = (f i).carried ref place) →
      ∀ (h : Heap) (r : Ref), (heap h).modify (ref r) f' = heap (h.modify r f)

namespace Carrier

variable (k : Carrier) {h : Heap}

theorem size (h : Heap) : (k.heap h).size = k.ref h.size :=
  k.size_add h 0

theorem typeName (r : Ref) : ((k.heap h).get (k.ref r)).typeName = (h.get r).typeName := by
  rw [k.get]
  rfl

theorem name (r : Ref) : ((k.heap h).get (k.ref r)).name = (h.get r).name := by
  rw [k.get]
  rfl

theorem alloc (i : Instance) :
    (k.heap h).alloc (i.carried k.ref k.place) = k.heap (h.alloc i) := by
  rw [Heap.alloc_eq_append, Heap.alloc_eq_append, ← k.append]
  rfl

theorem store (r : Ref) (field : FieldSpec) (vs : List Value) :
    (k.heap h).store (k.ref r) field (vs.map (Value.mapRefs k.ref)) =
      (h.store r field vs).map k.heap := by
  unfold Heap.store
  rw [k.get, Instance.store_carried]
  cases (h.get r).store field vs with
  | error e => rfl
  | ok j => exact congrArg Except.ok (k.modify (f := fun _ => j) (fun _ => rfl) h r)

theorem preorder {fields : Instance → List FieldSpec}
    (hfields : ∀ i : Instance, fields (i.carried k.ref k.place) = fields i) (root : Ref) :
    (k.heap h).preorder fields [k.ref root] = (h.preorder fields [root]).map k.ref := by
  have hchildren : ∀ r, (k.heap h).children fields (k.ref r) = (h.children fields r).map k.ref :=
    fun r => Heap.children_map (by rw [k.get, hfields])
      fun field _ => by rw [k.get, Instance.fetch?_carried]
  have hinj : Set.InjOn k.ref {_r | True} := fun a _ b _ => k.ref_injective a b
  have harrivals : (k.heap h).arrivals fields ([root].map k.ref) =
      (h.arrivals fields [root]).map k.ref :=
    Heap.arrivals_map hinj (fun r _ => hchildren r) (fun _ _ _ _ => trivial) (fun _ _ => trivial)
  rw [Heap.preorder, Heap.preorder, ← Heap.eraseDups_map fun a _ b _ => k.ref_injective a b,
    ← harrivals]
  rfl

theorem copies {reg : Registry} {move move' : Ref → Ref}
    (hmove : ∀ r, move' (k.ref r) = k.ref (move r)) (rs : List Ref) :
    (k.heap h).copies reg move' (rs.map k.ref) =
      (h.copies reg move rs).map (List.map (Instance.carried k.ref k.place)) := by
  refine Heap.mapM_map (fun r => ?_) rs
  simp only [k.typeName, bind, Except.bind]
  cases reg.lookup (h.get r).typeName with
  | error e => rfl
  | ok spec =>
      simp only
      rw [k.get, Heap.copyOf_carried hmove]

/-- Copies get the numbers that they would have got, carried along. -/
theorem copy (reg : Registry) (root : Ref) :
    (k.heap h).copy reg (k.ref root) true =
      (h.copy reg root true).map fun new => (k.heap new.1, k.ref new.2) := by
  have horder : (k.heap h).preorder reg.fieldsOf [k.ref root] =
      (h.preorder reg.fieldsOf [root]).map k.ref := k.preorder (fun _ => rfl) root
  -- A copy has the number of its place in the walk, and the walk is carried along.
  have hmove : ∀ r, (k.heap h).size +
      ((h.preorder reg.fieldsOf [root]).map k.ref).idxOf (k.ref r) =
        k.ref (h.size + (h.preorder reg.fieldsOf [root]).idxOf r) := by
    intro r
    rw [Heap.idxOf_map k.ref_injective, k.size_add]
  unfold Heap.copy Heap.deepCopy
  rw [if_pos rfl, if_pos rfl, horder]
  simp only [bind, Except.bind]
  rw [k.copies hmove]
  cases h.copies reg (fun r => h.size + (h.preorder reg.fieldsOf [root]).idxOf r)
      (h.preorder reg.fieldsOf [root]) with
  | error e => rfl
  | ok new => simp only [Except.map, k.append, k.size]

end Carrier

namespace Heap

variable {g : Position → Position} {h : Heap}

/-- The heap with every object met at another position. -/
def moved (g : Position → Position) (h : Heap) : Heap :=
  ⟨h.instances.map (Instance.moved g)⟩

theorem get_moved (r : Ref) : (h.moved g).get r = (h.get r).moved g := by
  unfold get moved
  rw [Array.getD_eq_getD_getElem?, Array.getD_eq_getD_getElem?, Array.getElem?_map]
  cases h.instances[r]? <;> rfl

theorem moved_append (is : List Instance) :
    (h.moved g).append (is.map (Instance.moved g)) = (h.append is).moved g := by
  simp [append, moved]

theorem moved_modify {f f' : Instance → Instance} (hf : ∀ i, f' (i.moved g) = (f i).moved g)
    (r : Ref) : (h.moved g).modify r f' = (h.modify r f).moved g := by
  unfold modify moved
  congr 1
  refine Array.ext (by simp) fun x _ _ => ?_
  simp only [Array.getElem_modify, Array.getElem_map]
  split
  · exact hf _
  · rfl

end Heap

/-- Objects that keep their numbers and were met at other positions. -/
def Carrier.moved (g : Position → Position) : Carrier where
  heap := Heap.moved g
  ref := id
  place := g
  ref_injective := fun _ _ heq => heq
  size_add := fun h n => by simp [Heap.moved, Heap.size]
  get := fun h r => by
    rw [Instance.carried_id_ref]
    exact Heap.get_moved r
  append := fun h is => by
    rw [Instance.carried_id_ref, Heap.moved_append]
  modify := fun hf h r => by
    rw [Instance.carried_id_ref] at hf
    exact Heap.moved_modify hf r

end GraphText

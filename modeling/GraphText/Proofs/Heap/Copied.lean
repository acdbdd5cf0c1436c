import GraphText.Heap.Copy
import GraphText.Proofs.Heap.Walk
import GraphText.Proofs.Registry.Valid
import Mathlib.Data.List.Forall2
import Mathlib.Data.List.GetD

/-!
# What copying makes

A deep copy puts new objects behind the heap, one for every object of the walk
and in its order, and touches nothing else. So it is described by a size and by
what stands at each number, and a new object refers to new objects only: those
made from what its source refers to.

That the copies of a graph without cycles have none is seen by walking back.
Every number of the new heap has an origin, the object that it was copied from
or itself, and every arrow of the new heap lies over an arrow of the old one.

## Main definitions

* `Heap.origin`: what the object of a number was made from.

## Theorems

* `mapM_eq_ok_iff`: results of a list, one by one.
* `foldlM_preserves`: what every step of a fold keeps.
* `Heap.copyOf_eq_ok`: what the copy of one object is.
* `Heap.deepCopy_eq_ok`: what a deep copy puts where.
* `Heap.points_of_deepCopy`: the arrows between copies.
-/

namespace GraphText

theorem mapM_eq_ok_iff {ε α β : Type} {f : α → Except ε β} {as : List α} {bs : List β} :
    as.mapM f = .ok bs ↔ List.Forall₂ (fun a b => f a = .ok b) as bs := by
  induction as generalizing bs with
  | nil =>
      simp only [List.mapM_nil, pure, Except.pure, Except.ok.injEq, List.forall₂_nil_left_iff]
      exact eq_comm
  | cons a as ih =>
      rw [List.mapM_cons, List.forall₂_cons_left_iff]
      constructor
      · intro h
        rcases bind_eq_ok h with ⟨b, hb, h⟩
        rcases bind_eq_ok h with ⟨rest, hrest, h⟩
        cases h
        exact ⟨b, rest, hb, ih.1 hrest, rfl⟩
      · rintro ⟨b, rest, hb, hrest, rfl⟩
        rw [hb, ih.2 hrest]
        rfl

/-- What every step of a fold keeps holds of its result. -/
theorem foldlM_preserves {ε α β : Type} {f : β → α → Except ε β} {P : β → Prop} {as : List α}
    {b b' : β} (h : as.foldlM f b = .ok b') (hb : P b)
    (hstep : ∀ a ∈ as, ∀ c c', f c a = .ok c' → P c → P c') : P b' := by
  induction as generalizing b with
  | nil =>
      cases h
      exact hb
  | cons a as ih =>
      rw [List.foldlM_cons] at h
      rcases bind_eq_ok h with ⟨c, hc, h⟩
      exact ih h (hstep a List.mem_cons_self _ _ hc hb)
        (fun a' ha' => hstep a' (List.mem_cons_of_mem _ ha'))

namespace Heap

/-- What the copy of an object keeps of it. -/
structure IsCopy (spec : ObjectSpec) (i : Instance) (move : Ref → Ref) (j : Instance) : Prop where
  typeName : j.typeName = spec.typeName
  name : j.name = i.name
  location : j.location = i.location
  isClone : j.isClone = true
  holds : ∀ x, j.Holds x → ∃ field ∈ spec.fields,
    ∃ y ∈ ((i.fetch? field).getD []).flatMap Value.refs, x = move y

theorem copyOf_eq_ok {spec : ObjectSpec} {i j : Instance} {move : Ref → Ref}
    (h : copyOf spec i move = .ok j) : IsCopy spec i move j := by
  refine foldlM_preserves (P := IsCopy spec i move) h ?_ ?_
  · exact ⟨rfl, rfl, rfl, rfl, fun x hx => absurd hx (Instance.not_holds_of_empty rfl x)⟩
  -- Field by field: what is not set is left out, and the rest is stored under the new numbers.
  · intro field hfield c c' hstep hc
    cases hvs : i.fetch? field with
    | none =>
        simp only [hvs, Except.ok.injEq] at hstep
        rw [← hstep]
        exact hc
    | some vs =>
        simp only [hvs] at hstep
        rcases Instance.store_eq_ok hstep with ⟨content, -, hc'⟩
        refine ⟨hc' ▸ hc.typeName, hc' ▸ hc.name, hc' ▸ hc.location, hc' ▸ hc.isClone, ?_⟩
        intro x hx
        rcases Instance.holds_of_store hstep hx with hx | hx
        · exact hc.holds x hx
        · rcases List.mem_flatMap.1 hx with ⟨v', hv', hx⟩
          rcases List.mem_map.1 hv' with ⟨v, hv, rfl⟩
          rw [Value.refs_mapRefs] at hx
          rcases List.mem_map.1 hx with ⟨y, hy, rfl⟩
          refine ⟨field, hfield, y, ?_, rfl⟩
          rw [hvs]
          exact List.mem_flatMap.2 ⟨v, hv, hy⟩

theorem get_append (h : Heap) (is : List Instance) (x : Ref) :
    (h.append is).get x = if x < h.size then h.get x else is.getD (x - h.size) default := by
  simp only [get, append, size, Array.getD_eq_getD_getElem?, Array.getElem?_append,
    List.getElem?_toArray, List.getD_eq_getElem?_getD]
  split <;> rfl

theorem size_append (h : Heap) (is : List Instance) :
    (h.append is).size = h.size + is.length := by
  simp [append, size]

/-- An object is linked to what it has in a field of its type. -/
theorem linked_of_fetch {reg : Registry} {h : Heap} {spec : ObjectSpec} {field : FieldSpec}
    {x y : Ref} (hspec : reg.find? (h.get x).typeName = some spec) (hfield : field ∈ spec.fields)
    (hy : y ∈ (((h.get x).fetch? field).getD []).flatMap Value.refs) :
    h.Linked reg.fieldsOf x y := by
  refine List.mem_flatMap.2 ⟨field, ?_, hy⟩
  rw [Registry.fieldsOf, hspec]
  exact hfield

/-- What a deep copy puts where: behind the heap, a copy of every object of the walk. -/
theorem deepCopy_eq_ok {reg : Registry} {h h' : Heap} {root : Ref} {order : List Ref}
    (horder : h.preorder reg.fieldsOf [root] = order) (hcopy : h.deepCopy reg root = .ok h') :
    h'.size = h.size + order.length ∧ (∀ x < h.size, h'.get x = h.get x) ∧
      ∀ i (hi : i < order.length), ∃ spec, reg.find? (h.get order[i]).typeName = some spec ∧
        copyOf spec (h.get order[i]) (fun r => h.size + order.idxOf r) =
          .ok (h'.get (h.size + i)) := by
  unfold deepCopy at hcopy
  rw [horder] at hcopy
  rcases bind_eq_ok hcopy with ⟨new, hnew, hcopy⟩
  cases hcopy
  rw [copies, mapM_eq_ok_iff] at hnew
  have hlen := hnew.length_eq
  refine ⟨by rw [size_append, hlen], fun x hx => by rw [get_append, if_pos hx], ?_⟩
  intro i hi
  -- The new objects go with the objects of the walk, one by one.
  have hone := (List.forall₂_iff_get.1 hnew).2 i hi (hlen ▸ hi)
  rcases bind_eq_ok hone with ⟨spec, hspec, hcopied⟩
  refine ⟨spec, Registry.lookup_eq_ok_iff.1 hspec, ?_⟩
  rw [get_append, if_neg (Nat.not_lt_of_le (Nat.le_add_right _ _)), Nat.add_sub_cancel_left,
    List.getD_eq_getElem _ _ (hlen ▸ hi)]
  exact hcopied

/-- What the object of a number was made from, given the size of the old heap and the walk that was
    copied. -/
def origin (size : Nat) (order : List Ref) (x : Ref) : Ref :=
  if x < size then x else order.getD (x - size) x

/-- An arrow out of a copy leads to another copy, over an arrow between what they were made from. -/
theorem points_of_deepCopy {reg : Registry} {h h' : Heap} {root x y : Ref} {order : List Ref}
    (horder : h.preorder reg.fieldsOf [root] = order) (hcopy : h.deepCopy reg root = .ok h')
    (hxy : h'.Points x y) (hx : h.size ≤ x) :
    h.size ≤ y ∧ y < h'.size ∧ h.Points (origin h.size order x) (origin h.size order y) := by
  rcases deepCopy_eq_ok horder hcopy with ⟨hsize, -, hnew⟩
  have hlt : x - h.size < order.length := by
    have := lt_size_of_points hxy
    lia
  rcases hnew (x - h.size) hlt with ⟨spec, hspec, hcopied⟩
  rw [Nat.add_sub_cancel' hx] at hcopied
  rcases (copyOf_eq_ok hcopied).holds y hxy with ⟨field, hfield, z, hz, rfl⟩
  have hlink := linked_of_fetch hspec hfield hz
  -- The walk goes along every arrow, so what a copied object refers to was copied as well.
  have hmem : z ∈ order := by
    rw [← horder]
    exact mem_preorder_of_linked (horder ▸ List.getElem_mem hlt) hlink
  have hidx : order.idxOf z < order.length := List.idxOf_lt_length_of_mem hmem
  refine ⟨Nat.le_add_right _ _, by lia, ?_⟩
  have hback : origin h.size order (h.size + order.idxOf z) = z := by
    rw [origin, if_neg (by lia), Nat.add_sub_cancel_left, List.getD_eq_getElem _ _ hidx]
    exact List.getElem_idxOf hidx
  rw [hback, origin, if_neg (by lia), List.getD_eq_getElem _ _ hlt]
  exact points_of_linked hlink

/-- Copying gives the first number that was free. -/
theorem copy_eq_ok_iff {reg : Registry} {h h' : Heap} {root copy : Ref} {deep : Bool} :
    h.copy reg root deep = .ok (h', copy) ↔
      copy = h.size ∧ (if deep then h.deepCopy reg root else h.shallowCopy reg root) = .ok h' := by
  unfold Heap.copy
  constructor
  · intro hcopy
    rcases map_eq_ok hcopy with ⟨new, hnew, heq⟩
    cases heq
    exact ⟨rfl, hnew⟩
  · rintro ⟨rfl, hnew⟩
    rw [hnew]
    rfl

/-- A deep copy makes at least the copy of the source. -/
theorem copy_eq_ok {reg : Registry} {h h' : Heap} {root copy : Ref}
    (hcopy : h.copy reg root true = .ok (h', copy)) :
    copy = h.size ∧ h.size < h'.size ∧ h.deepCopy reg root = .ok h' := by
  rcases copy_eq_ok_iff.1 hcopy with ⟨rfl, hdeep⟩
  rcases preorder_eq_cons h reg.fieldsOf root with ⟨rest, hrest⟩
  have hsize := (deepCopy_eq_ok hrest hdeep).1
  rw [List.length_cons] at hsize
  exact ⟨rfl, by omega, hdeep⟩

end Heap

end GraphText

import GraphText.Proofs.Heap.Carried

/-!
# Heaps beside each other

A heap can be put behind another one. Its objects keep what they have, and every
number in them grows by the size of the heap in front. This is a way of carrying
heaps, so whatever is then done to the objects behind is done as if they were
alone. The objects in front do not come into it.

## Main definitions

* `Heap.shift`: the new number of an object behind a heap.
* `Heap.beside`: a heap behind another one.
* `Carrier.beside`: heaps carried behind another one.
* `Heap.IsoBelow`: graphs that are the same but for the numbers.

## Theorems

* `Heap.get_beside`, `Heap.beside_append`, `Heap.beside_modify`: the objects
  behind.
* `Heap.isoBelow_beside`: the graphs behind.
-/

namespace GraphText

namespace Heap

/-- The number of an object behind this heap. -/
def shift (hb : Heap) (r : Ref) : Ref := hb.size + r

/-- A heap behind this one. -/
def beside (hb h : Heap) : Heap :=
  ⟨hb.instances ++ h.instances.map (Instance.mapRefs hb.shift)⟩

variable {hb h : Heap}

theorem shift_inj (a b : Ref) (h : hb.shift a = hb.shift b) : a = b :=
  Nat.add_left_cancel h

theorem size_beside : (hb.beside h).size = hb.size + h.size := by
  simp [beside, size]

theorem shift_lt_size (r : Ref) : hb.shift r < (hb.beside h).size ↔ r < h.size := by
  rw [size_beside, shift]
  exact Nat.add_lt_add_iff_left

theorem get_beside (r : Ref) : (hb.beside h).get (hb.shift r) = (h.get r).mapRefs hb.shift := by
  by_cases hr : r < h.size
  · have hlt : hb.shift r < (hb.beside h).size := (shift_lt_size r).2 hr
    simp only [size] at hr hlt
    simp only [get, Array.getD, dif_pos hr, dif_pos hlt]
    simp [beside, shift, size]
  · have hle : (hb.beside h).size ≤ hb.shift r :=
      Nat.le_of_not_lt fun hlt => hr ((shift_lt_size r).1 hlt)
    rw [get_of_size_le hle, get_of_size_le (Nat.le_of_not_lt hr)]
    rfl

theorem beside_empty : hb.beside .empty = hb := by
  simp [beside, empty]

theorem beside_append (is : List Instance) :
    (hb.beside h).append (is.map (Instance.mapRefs hb.shift)) = hb.beside (h.append is) := by
  simp [append, beside]

theorem beside_modify {f g : Instance → Instance}
    (hfg : ∀ i : Instance, g (i.mapRefs hb.shift) = (f i).mapRefs hb.shift) (r : Ref) :
    (hb.beside h).modify (hb.shift r) g = hb.beside (h.modify r f) := by
  unfold modify beside
  congr 1
  refine Array.ext (by simp) fun x _ _ => ?_
  rw [Array.getElem_modify, Array.getElem_append, Array.getElem_append]
  -- What is changed has been moved up, so it is not among the objects below.
  by_cases hx : x < hb.instances.size
  · have hne : hb.shift r ≠ x :=
      Nat.ne_of_gt (Nat.lt_of_lt_of_le hx (Nat.le_add_right _ _))
    rw [dif_pos hx, dif_pos hx, if_neg hne]
  · have hiff : hb.shift r = x ↔ r = x - hb.instances.size := by
      rw [shift, size]
      lia
    simp only [dif_neg hx, Array.getElem_map, Array.getElem_modify]
    by_cases heq : r = x - hb.instances.size
    · rw [if_pos (hiff.2 heq), if_pos heq, hfg]
    · rw [if_neg fun hshift => heq (hiff.1 hshift), if_neg heq]

end Heap

/-- Objects that stand behind a heap, and were met where they were met. -/
def Carrier.beside (hb : Heap) : Carrier where
  heap := hb.beside
  ref := hb.shift
  place := id
  ref_injective := Heap.shift_inj
  size_add := fun h n => by rw [Heap.size_beside, Heap.shift, Nat.add_assoc]
  get := fun h r => by rw [Instance.carried_id_place, Heap.get_beside]
  append := fun h is => by rw [Instance.carried_id_place, Heap.beside_append]
  modify := fun hf h r => by
    rw [Instance.carried_id_place] at hf
    exact Heap.beside_modify hf r

namespace Heap

/-- Two graphs are the same but for the numbers of their objects. -/
structure IsoBelow (h : Heap) (root : Ref) (h' : Heap) (root' : Ref) (f : Ref → Ref) : Prop where
  injective : ∀ a b, f a = f b → a = b
  root_eq : f root = root'
  get : ∀ r, Relation.ReflTransGen h.Points root r → h'.get (f r) = (h.get r).mapRefs f
  onto : ∀ x, Relation.ReflTransGen h'.Points root' x →
    ∃ r, Relation.ReflTransGen h.Points root r ∧ f r = x

theorem isoBelow_beside (hb h : Heap) (root : Ref) :
    IsoBelow h root (hb.beside h) (hb.shift root) hb.shift where
  injective := shift_inj
  root_eq := rfl
  get := fun r _ => get_beside r
  onto := by
    intro x hx
    induction hx with
    | refl => exact ⟨root, .refl, rfl⟩
    | tail _ hlast ih =>
        rcases ih with ⟨r, hr, rfl⟩
        unfold Points at hlast
        rw [get_beside] at hlast
        rcases Instance.holds_mapRefs hlast with ⟨y, hy, rfl⟩
        exact ⟨y, hr.tail hy, rfl⟩

end Heap

end GraphText

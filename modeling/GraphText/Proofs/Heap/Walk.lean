import GraphText.Proofs.Heap.Graph

/-!
# What a walk meets

A walk lists its arrivals from a stack of pending objects. What it lists is
settled from two sides. Nothing is listed that cannot be reached from a pending
object, because an object gets onto the stack as a neighbour of one that was
listed. And everything that can be reached is listed: whatever the walk has met
has its neighbours behind it or on the stack. The second half is an invariant of
the stack, so it is stated for a walk in the middle, with some objects met and
some neighbours accounted for elsewhere.

## Main definitions

* `Heap.Reaches`: reachability through some fields.

## Theorems

* `Heap.mem_arrivals_iff`: the walk arrives at what can be reached.
* `Heap.mem_preorder_iff`: and lists it once.
* `Heap.arrivals_perm`: how often it arrives at an object.
* `Heap.nodup_preorder`: no object twice.
-/

namespace GraphText

theorem nodup_eraseDups {α : Type} [BEq α] [LawfulBEq α] (l : List α) : l.eraseDups.Nodup := by
  induction hn : l.length using Nat.strongRecOn generalizing l with
  | ind n ih =>
    cases l with
    | nil => exact List.nodup_nil
    | cons a as =>
        rw [List.eraseDups_cons, List.nodup_cons]
        have hlen : (as.filter fun b => !b == a).length < n := by
          have := List.length_filter_le (fun b => !b == a) as
          rw [List.length_cons] at hn
          omega
        refine ⟨?_, ih _ hlen _ rfl⟩
        rw [List.mem_eraseDups, List.mem_filter]
        simp

namespace Heap

/-- Whether an object can be reached from another one through some fields. -/
def Reaches (h : Heap) (fields : Instance → List FieldSpec) : Ref → Ref → Prop :=
  Relation.ReflTransGen (h.Linked fields)

section

variable {size : Nat} {next : Ref → List Ref}

/-- What is pending is arrived at. -/
theorem mem_arrivalsFrom_of_pending {met pending : List Ref} {r : Ref} (hr : r ∈ pending) :
    r ∈ arrivalsFrom size next met pending := by
  fun_induction arrivalsFrom size next met pending with
  | case1 => exact hr
  | case2 met r' pending hnew ih =>
      rcases List.mem_cons.1 hr with rfl | hr
      · exact List.mem_cons_self
      · exact List.mem_cons_of_mem _ (ih (List.mem_append_right _ hr))
  | case3 met r' pending hold ih =>
      rcases List.mem_cons.1 hr with rfl | hr
      · exact List.mem_cons_self
      · exact List.mem_cons_of_mem _ (ih hr)

/-- What is arrived at are the pending objects, and the neighbours of every object in the heap that
    is met for the first time. -/
theorem arrivalsFrom_perm (met pending : List Ref) :
    ∃ fresh : List Ref, fresh.Nodup ∧
      (∀ r, r ∈ fresh ↔ r < size ∧ r ∉ met ∧ r ∈ arrivalsFrom size next met pending) ∧
      (arrivalsFrom size next met pending).Perm (pending ++ fresh.flatMap next) := by
  fun_induction arrivalsFrom size next met pending with
  | case1 met => exact ⟨[], List.nodup_nil, by simp, .refl _⟩
  | case2 met r pending hnew ih =>
      rcases ih with ⟨fresh, hnodup, hfresh, hperm⟩
      have hr : r ∉ met := by simpa using hnew.2
      refine ⟨r :: fresh, List.nodup_cons.2 ⟨fun hmem => ?_, hnodup⟩, fun x => ?_, ?_⟩
      · exact ((hfresh r).1 hmem).2.1 List.mem_cons_self
      · rw [List.mem_cons, List.mem_cons, hfresh, List.mem_cons, not_or]
        by_cases hx : x = r
        · simp [hx, hnew.1, hr]
        · simp [hx]
      · rw [List.flatMap_cons, List.cons_append, List.perm_cons]
        refine hperm.trans ?_
        rw [← List.append_assoc]
        exact List.perm_append_comm.append_right _
  | case3 met r pending hold ih =>
      rcases ih with ⟨fresh, hnodup, hfresh, hperm⟩
      refine ⟨fresh, hnodup, fun x => ?_, hperm.cons r⟩
      rw [hfresh, List.mem_cons]
      -- An object that comes again is not new, and neither is one outside of the heap.
      constructor
      · rintro ⟨hlt, hx, hmem⟩
        exact ⟨hlt, hx, .inr hmem⟩
      · rintro ⟨hlt, hx, rfl | hmem⟩
        · exact absurd ⟨hlt, by simpa using hx⟩ hold
        · exact ⟨hlt, hx, hmem⟩

/-- Nothing is arrived at that cannot be reached. -/
theorem reaches_of_mem_arrivalsFrom {met pending : List Ref} {x : Ref}
    (hx : x ∈ arrivalsFrom size next met pending) :
    ∃ r ∈ pending, Relation.ReflTransGen (fun a b => b ∈ next a) r x := by
  fun_induction arrivalsFrom size next met pending with
  | case1 => simp at hx
  | case2 met r pending hnew ih =>
      rcases List.mem_cons.1 hx with rfl | hx
      · exact ⟨x, List.mem_cons_self, .refl⟩
      · rcases ih hx with ⟨s, hs, hreach⟩
        rcases List.mem_append.1 hs with hs | hs
        · exact ⟨r, List.mem_cons_self, hreach.head hs⟩
        · exact ⟨s, List.mem_cons_of_mem _ hs, hreach⟩
  | case3 met r pending hold ih =>
      rcases List.mem_cons.1 hx with rfl | hx
      · exact ⟨x, List.mem_cons_self, .refl⟩
      · rcases ih hx with ⟨s, hs, hreach⟩
        exact ⟨s, List.mem_cons_of_mem _ hs, hreach⟩

/-- The neighbours of what has been met or is arrived at are met or arrived at, unless they are
    accounted for elsewhere. -/
theorem arrivalsFrom_closed {met pending : List Ref} {elsewhere : Ref → Prop}
    (hmet : ∀ m ∈ met, ∀ y ∈ next m, y ∈ met ∨ y ∈ pending ∨ elsewhere y) :
    ∀ r, r ∈ met ∨ r ∈ arrivalsFrom size next met pending → r < size →
      ∀ y ∈ next r, y ∈ met ∨ y ∈ arrivalsFrom size next met pending ∨ elsewhere y := by
  -- The induction is along the walk. The claim speaks of what is elsewhere because an object that
  -- comes again leaves the pending ones without being met anew.
  fun_induction arrivalsFrom size next met pending generalizing elsewhere with
  | case1 met =>
      intro r hr _ y hy
      rcases hr with hr | hr
      · exact hmet r hr y hy
      · simp at hr
  | case2 met r' pending hnew ih =>
      -- An object that is met for the first time moves to the met ones, and its neighbours are
      -- pending.
      have hmet' : ∀ m ∈ r' :: met, ∀ y ∈ next m,
          y ∈ r' :: met ∨ y ∈ next r' ++ pending ∨ elsewhere y := by
        intro m hm y hy
        rcases List.mem_cons.1 hm with rfl | hm
        · exact .inr (.inl (List.mem_append_left _ hy))
        · rcases hmet m hm y hy with h | h | h
          · exact .inl (List.mem_cons_of_mem _ h)
          · rcases List.mem_cons.1 h with rfl | h
            · exact .inl List.mem_cons_self
            · exact .inr (.inl (List.mem_append_right _ h))
          · exact .inr (.inr h)
      intro r hr hlt y hy
      have hr' : r ∈ r' :: met ∨ r ∈ arrivalsFrom size next (r' :: met) (next r' ++ pending) := by
        rcases hr with hr | hr
        · exact .inl (List.mem_cons_of_mem _ hr)
        · rcases List.mem_cons.1 hr with rfl | hr
          · exact .inl List.mem_cons_self
          · exact .inr hr
      rcases ih hmet' r hr' hlt y hy with h | h | h
      · rcases List.mem_cons.1 h with rfl | h
        · exact .inr (.inl List.mem_cons_self)
        · exact .inl h
      · exact .inr (.inl (List.mem_cons_of_mem _ h))
      · exact .inr (.inr h)
  | case3 met r' pending hold ih =>
      -- An object that is not walked below again is accounted for by its arrival.
      have hmet' : ∀ m ∈ met, ∀ y ∈ next m, y ∈ met ∨ y ∈ pending ∨ (elsewhere y ∨ y = r') := by
        intro m hm y hy
        rcases hmet m hm y hy with h | h | h
        · exact .inl h
        · rcases List.mem_cons.1 h with rfl | h
          · exact .inr (.inr (.inr rfl))
          · exact .inr (.inl h)
        · exact .inr (.inr (.inl h))
      intro r hr hlt y hy
      have hr' : r ∈ met ∨ r ∈ arrivalsFrom size next met pending := by
        rcases hr with hr | hr
        · exact .inl hr
        · rcases List.mem_cons.1 hr with rfl | hr
          · by_cases hm : r ∈ met
            · exact .inl hm
            · exact absurd ⟨hlt, by simpa using hm⟩ hold
          · exact .inr hr
      rcases ih hmet' r hr' hlt y hy with h | h | h | rfl
      · exact .inl h
      · exact .inr (.inl (List.mem_cons_of_mem _ h))
      · exact .inr (.inr h)
      · exact .inr (.inl List.mem_cons_self)

end

variable {h : Heap} {fields : Instance → List FieldSpec}

theorem not_linked_of_size_le {r : Ref} (hr : h.size ≤ r) (x : Ref) : ¬ h.Linked fields r x :=
  fun hx => not_points_of_size_le hr x (points_of_linked hx)

/-- What can be reached through some fields can be reached. -/
theorem points_of_reaches {r x : Ref} (hx : h.Reaches fields r x) :
    Relation.ReflTransGen h.Points r x := by
  induction hx with
  | refl => exact .refl
  | tail _ hlink ih => exact ih.tail (points_of_linked hlink)

/-- A walk arrives at what can be reached. -/
theorem mem_arrivals_iff {roots : List Ref} {x : Ref} :
    x ∈ h.arrivals fields roots ↔ ∃ r ∈ roots, h.Reaches fields r x := by
  constructor
  · exact reaches_of_mem_arrivalsFrom
  · rintro ⟨r, hr, hreach⟩
    -- Along a path: the walk is closed under the links between its objects.
    induction hreach with
    | refl => exact mem_arrivalsFrom_of_pending hr
    | tail _ hlink ih =>
        have hlt := Nat.lt_of_not_le fun hle => not_linked_of_size_le hle _ hlink
        have hclosed : ∀ r, r ∈ [] ∨ r ∈ h.arrivals fields roots → r < h.size →
            ∀ y ∈ h.children fields r, y ∈ [] ∨ y ∈ h.arrivals fields roots ∨ False :=
          arrivalsFrom_closed (by simp)
        rcases hclosed _ (.inr ih) hlt _ hlink with hm | hm | hm
        · simp at hm
        · exact hm
        · exact hm.elim

theorem mem_preorder_iff {roots : List Ref} {x : Ref} :
    x ∈ h.preorder fields roots ↔ ∃ r ∈ roots, h.Reaches fields r x := by
  rw [preorder, List.mem_eraseDups, mem_arrivals_iff]

/-- A walk goes on to what it has met refers to. -/
theorem mem_preorder_of_linked {roots : List Ref} {x y : Ref} (hx : x ∈ h.preorder fields roots)
    (hlink : h.Linked fields x y) : y ∈ h.preorder fields roots := by
  rcases mem_preorder_iff.1 hx with ⟨r, hr, hreach⟩
  exact mem_preorder_iff.2 ⟨r, hr, hreach.tail hlink⟩

theorem nodup_preorder (roots : List Ref) : (h.preorder fields roots).Nodup :=
  nodup_eraseDups _

/-- A walk arrives at its roots, and at an object once for every time that one of the objects it
    meets refers to it. -/
theorem arrivals_perm (h : Heap) (fields : Instance → List FieldSpec) (roots : List Ref) :
    (h.arrivals fields roots).Perm
      (roots ++ (h.preorder fields roots).flatMap (h.children fields)) := by
  have hall : ∃ fresh : List Ref, fresh.Nodup ∧
      (∀ r, r ∈ fresh ↔ r < h.size ∧ r ∉ [] ∧ r ∈ h.arrivals fields roots) ∧
      (h.arrivals fields roots).Perm (roots ++ fresh.flatMap (h.children fields)) :=
    arrivalsFrom_perm [] roots
  rcases hall with ⟨fresh, hnodup, hfresh, hperm⟩
  refine hperm.trans (List.Perm.append_left roots ?_)
  -- Objects outside of the heap refer to nothing, and the others are those that are new once.
  have hinside : fresh.Perm ((h.preorder fields roots).filter (· < h.size)) := by
    refine (List.perm_ext_iff_of_nodup hnodup ((nodup_preorder roots).filter _)).2 fun r => ?_
    rw [hfresh, List.mem_filter, preorder, List.mem_eraseDups, decide_eq_true_iff]
    simp [and_comm]
  have houtside : ((h.preorder fields roots).filter (fun r => !decide (r < h.size))).flatMap
      (h.children fields) = [] := by
    refine List.flatMap_eq_nil_iff.2 fun r hr => List.eq_nil_iff_forall_not_mem.2 fun x hx => ?_
    have hle := (List.mem_filter.1 hr).2
    rw [Bool.not_eq_true', decide_eq_false_iff_not] at hle
    exact not_linked_of_size_le (Nat.le_of_not_lt hle) x hx
  have hsplit := (List.filter_append_perm (· < h.size) (h.preorder fields roots)).flatMap_right
    (h.children fields)
  rw [List.flatMap_append, houtside, List.append_nil] at hsplit
  exact (hinside.flatMap_right _).trans hsplit

/-- A walk begins at its root. -/
theorem preorder_eq_cons (h : Heap) (fields : Instance → List FieldSpec) (root : Ref) :
    ∃ rest, h.preorder fields [root] = root :: rest := by
  unfold preorder arrivals
  rw [arrivalsFrom]
  split <;> exact ⟨_, List.eraseDups_cons⟩

/-- Where nothing is referred to, the walk ends where it begins. -/
theorem preorder_leaf {h : Heap} {fields : Instance → List FieldSpec} {r : Ref}
    (hleaf : h.children fields r = []) : h.preorder fields [r] = [r] := by
  unfold preorder arrivals
  rw [arrivalsFrom, hleaf, List.nil_append]
  split <;> rw [arrivalsFrom] <;> rfl

end Heap

end GraphText

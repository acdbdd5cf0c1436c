import GraphText.Proofs.Heap.Copied
import GraphText.Proofs.Reader.Names
import GraphText.Proofs.Reader.Steps

/-!
# Complete objects

An object is open while its body is being read, and a copy also while a body may
still follow it. Every other object that reading has made is complete, and the
reader keeps two kinds of objects apart at all times: what can be named, and
what any object refers to, is complete; what is still open is known to nobody
but its own body.

The invariant is about a heap and the contexts of all documents that are being
read, the innermost first. A turn changes the heap and the first context only,
so most of the work is about a heap and one context in front of others. Three
changes touch the heap. A store changes an open object, which nothing refers to,
so it closes no cycle; a new object refers to nothing; and copies refer to copies
over the arrows of what they were made from.

Objects below `base` were there before reading began. Nothing is known of them
except that they stay as they are.

## Main definitions

* `Context.openRefs`, `Context.held`: what is open, and what waits to be stored.
* `Completed`: objects of this reading that are not open.
* `Sound`: the invariant.
* `Extends`: what happens to complete objects from one heap to a later one.

## Theorems

* `Sound.store`, `Sound.alloc`, `Sound.copy`: the three changes of the heap.
-/

namespace GraphText.Reader

/-- The objects that stand before this one in its list. -/
def Target.before : Target → List Ref
  | element _ _ _ before => before
  | _ => []

/-- The objects that a mode remembers. -/
def Mode.held : Mode → List Ref
  | scalar _ _ _ _ before | listItem _ _ _ before | listEnd _ _ _ before =>
    before.flatMap Value.refs
  | element _ _ before | elementEnd _ _ before => before
  | finished root => [root]
  | mode => (mode.target?.map Target.before).getD []

/-- The copy behind which a body may follow. -/
def Mode.copy? : Mode → Option Ref
  | cloned copy _ _ => some copy
  | _ => none

/-- The objects that are open in a context. -/
def Context.openRefs (c : Context) : List Ref :=
  c.mode.copy?.toList ++ c.bodies.map Body.object

/-- The objects that wait in a context to be stored. -/
def Context.held (c : Context) : List Ref :=
  c.mode.held ++ c.bodies.flatMap fun body => body.target.before

/-- The objects that are open in some contexts. -/
def openRefs (cs : List Context) : List Ref :=
  cs.flatMap Context.openRefs

/-- An object of this reading, which made those from `base` on, that is not open. -/
structure Completed (base : Nat) (heap : Heap) (cs : List Context) (r : Ref) : Prop where
  base_le : base ≤ r
  lt_size : r < heap.size
  not_open : r ∉ openRefs cs

/-- The invariant of a heap and the contexts of all documents, the innermost first. -/
structure Sound (base : Nat) (heap : Heap) (cs : List Context) : Prop where
  base_le : base ≤ heap.size
  nodup : (openRefs cs).Nodup
  opened : ∀ r ∈ openRefs cs, base ≤ r ∧ r < heap.size
  named : ∀ c ∈ cs, ∀ name r, c.scopes.Names name r →
    Completed base heap cs r ∧ (heap.get r).name = some name
  held : ∀ c ∈ cs, ∀ r ∈ c.held, Completed base heap cs r
  stored : ∀ r x, base ≤ r → heap.Points r x → Completed base heap cs x
  acyclic : ∀ r, ¬ Relation.TransGen (fun r x => base ≤ r ∧ heap.Points r x) r r

/-- What happens to the objects of a heap on the way to a later one. -/
structure Extends (base : Nat) (heap : Heap) (cs : List Context) (heap' : Heap)
    (cs' : List Context) : Prop where
  size_le : heap.size ≤ heap'.size
  completed : ∀ r, Completed base heap cs r → Completed base heap' cs' r
  same : ∀ r, r < heap.size → r ∉ openRefs cs' → heap'.get r = heap.get r
  old : ∀ r x, r < heap.size → heap'.Points r x → heap.Points r x ∨ x < heap.size

section

variable {base : Nat} {heap heap' : Heap} {cs cs' : List Context} {c c' : Context} {r : Ref}

theorem Completed.mono (h : Completed base heap cs r) (hopen : openRefs cs' ⊆ openRefs cs) :
    Completed base heap cs' r :=
  ⟨h.base_le, h.lt_size, fun hmem => h.not_open (hopen hmem)⟩

/-- Without a change of the heap, an object is complete if it is not open. -/
theorem Extends.of_completed (h : ∀ r, Completed base heap cs r → Completed base heap cs' r) :
    Extends base heap cs heap cs' :=
  ⟨Nat.le_refl _, h, fun _ _ _ => rfl, fun _ _ _ hx => .inl hx⟩

/-- It does not matter if some objects were still open at first. -/
theorem Extends.after {cs'' : List Context} (h : Extends base heap cs heap' cs')
    (hfirst : ∀ r, Completed base heap cs'' r → Completed base heap cs r) :
    Extends base heap cs'' heap' cs' :=
  ⟨h.size_le, fun r hr => h.completed r (hfirst r hr), h.same, h.old⟩

namespace Sound

/-- Nothing is lost when fewer objects are open and no other names are known. -/
theorem reframe (h : Sound base heap cs) (hopen : (openRefs cs').Sublist (openRefs cs))
    (hnamed : ∀ c ∈ cs', ∀ name r, c.scopes.Names name r →
      Completed base heap cs' r ∧ (heap.get r).name = some name)
    (hheld : ∀ c ∈ cs', ∀ r ∈ c.held, Completed base heap cs' r) : Sound base heap cs' where
  base_le := h.base_le
  nodup := h.nodup.sublist hopen
  opened := fun r hr => h.opened r (hopen.subset hr)
  named := hnamed
  held := hheld
  stored := fun r x hr hx => (h.stored r x hr hx).mono hopen.subset
  acyclic := h.acyclic

/-- The first context may change, if nothing is opened and what becomes known is complete. -/
theorem swap (h : Sound base heap (c :: cs)) (hopen : c'.openRefs.Sublist c.openRefs)
    (hnamed : ∀ name r, c'.scopes.Names name r → c.scopes.Names name r ∨
      (Completed base heap (c' :: cs) r ∧ (heap.get r).name = some name))
    (hheld : ∀ r ∈ c'.held, r ∈ c.held ∨ Completed base heap (c' :: cs) r) :
    Sound base heap (c' :: cs) := by
  have hsub : (openRefs (c' :: cs)).Sublist (openRefs (c :: cs)) := hopen.append_right _
  refine h.reframe hsub ?_ ?_
  · intro d hd name r hr
    rcases List.mem_cons.1 hd with rfl | hd
    · rcases hnamed name r hr with hr | hr
      · have hold := h.named c List.mem_cons_self name r hr
        exact ⟨hold.1.mono hsub.subset, hold.2⟩
      · exact hr
    · have hold := h.named d (List.mem_cons_of_mem _ hd) name r hr
      exact ⟨hold.1.mono hsub.subset, hold.2⟩
  · intro d hd r hr
    rcases List.mem_cons.1 hd with rfl | hd
    · rcases hheld r hr with hr | hr
      · exact (h.held c List.mem_cons_self r hr).mono hsub.subset
      · exact hr
    · exact (h.held d (List.mem_cons_of_mem _ hd) r hr).mono hsub.subset

/-- Nothing is opened or closed, and nothing becomes known. -/
theorem pass (h : Sound base heap (c :: cs)) (hopen : c'.openRefs = c.openRefs)
    (hnamed : ∀ name r, c'.scopes.Names name r → c.scopes.Names name r)
    (hheld : c'.held ⊆ c.held) :
    Sound base heap (c' :: cs) ∧ Extends base heap (c :: cs) heap (c' :: cs) := by
  have hopenRefs : openRefs (c' :: cs) = openRefs (c :: cs) := by
    simp [openRefs, hopen]
  refine ⟨h.swap (hopen ▸ List.Sublist.refl _) (fun name r hr => .inl (hnamed name r hr))
    (fun r hr => .inl (hheld hr)), Extends.of_completed fun r hr => ?_⟩
  exact hr.mono (hopenRefs ▸ List.Subset.refl _)

/-- The object that is no longer open is complete. -/
theorem closed (h : Sound base heap (c :: cs)) (c' : Context) {o : Ref}
    (hopen : c.openRefs = o :: c'.openRefs)
    (hnamed : ∀ name r, c'.scopes.Names name r → c.scopes.Names name r)
    (hheld : c'.held ⊆ c.held) :
    Sound base heap (c' :: cs) ∧ Completed base heap (c' :: cs) o ∧
      ∀ r, Completed base heap (c :: cs) r → Completed base heap (c' :: cs) r := by
  -- No object is open twice, so the one that closes is open nowhere else.
  have hopenRefs : openRefs (c :: cs) = o :: openRefs (c' :: cs) := by
    simp [openRefs, hopen]
  have hnodup := h.nodup
  rw [hopenRefs, List.nodup_cons] at hnodup
  have ho := h.opened o (hopenRefs ▸ List.mem_cons_self)
  refine ⟨h.swap ?_ (fun name r hr => .inl (hnamed name r hr)) (fun r hr => .inl (hheld hr)),
    ⟨ho.1, ho.2, hnodup.1⟩, fun r hr => hr.mono ?_⟩
  · rw [hopen]
    exact List.sublist_cons_self _ _
  · rw [hopenRefs]
    exact List.subset_cons_self _ _

/-- The contexts of a heap in which complete objects are what they were. -/
theorem of_extends (h : Sound base heap cs) (hext : Extends base heap cs heap' cs)
    (hstored : ∀ r x, base ≤ r → heap'.Points r x → Completed base heap' cs x)
    (hacyclic : ∀ r, ¬ Relation.TransGen (fun r x => base ≤ r ∧ heap'.Points r x) r r) :
    Sound base heap' cs where
  base_le := Nat.le_trans h.base_le hext.size_le
  nodup := h.nodup
  opened := fun r hr => ⟨(h.opened r hr).1, Nat.lt_of_lt_of_le (h.opened r hr).2 hext.size_le⟩
  named := by
    intro c hc name r hr
    have hold := h.named c hc name r hr
    refine ⟨hext.completed r hold.1, ?_⟩
    rw [hext.same r hold.1.lt_size hold.1.not_open]
    exact hold.2
  held := fun c hc r hr => hext.completed r (h.held c hc r hr)
  stored := hstored
  acyclic := hacyclic

/-- A store of complete objects in an open one. -/
theorem store (h : Sound base heap cs) {o : Ref} (ho : o ∈ openRefs cs) {field : FieldSpec}
    {vs : List Value} (hvs : ∀ x ∈ vs.flatMap Value.refs, Completed base heap cs x)
    (hstore : heap.store o field vs = .ok heap') :
    Sound base heap' cs ∧ Extends base heap cs heap' cs := by
  have hsize := (Heap.get_of_store hstore).1
  -- Only the fields of an open object change, and nothing is opened or closed.
  have hmono : ∀ r, Completed base heap cs r → Completed base heap' cs r :=
    fun r hr => ⟨hr.base_le, by rw [hsize]; exact hr.lt_size, hr.not_open⟩
  have hext : Extends base heap cs heap' cs := by
    refine ⟨Nat.le_of_eq hsize.symm, hmono, ?_, ?_⟩
    · intro r _ hr
      exact Heap.get_of_store_ne hstore (fun heq => hr (heq ▸ ho))
    · intro r x _ hx
      rcases Heap.points_of_store hstore hx with hx | ⟨-, hx⟩
      · exact .inl hx
      · exact .inr (hvs x hx).lt_size
  have hstored : ∀ r x, base ≤ r → heap'.Points r x → Completed base heap' cs x := by
    intro r x hr hx
    rcases Heap.points_of_store hstore hx with hx | ⟨-, hx⟩
    · exact hmono x (h.stored r x hr hx)
    · exact hmono x (hvs x hx)
  refine ⟨h.of_extends hext hstored
    (acyclic_of_source (r := o) ?_ ?_ h.acyclic), hext⟩
  -- Nothing refers to the open object, so the new arrows close no cycle.
  · rintro x ⟨hx, hpoints⟩
    exact (hstored x o hx hpoints).not_open ho
  · rintro x y hx ⟨hbase, hpoints⟩
    rcases Heap.points_of_store hstore hpoints with hpoints | ⟨heq, -⟩
    · exact ⟨hbase, hpoints⟩
    · exact absurd heq hx

/-- New objects behind the heap, of which the first one is open and none refers to it. -/
theorem grow (h : Sound base heap (c :: cs)) (hlt : heap.size < heap'.size)
    (hget : ∀ x, x < heap.size → heap'.get x = heap.get x)
    (hnew : ∀ x y, heap.size ≤ x → heap'.Points x y → heap.size < y ∧ y < heap'.size)
    (hacyclic : ∀ r, ¬ Relation.TransGen (fun r x => base ≤ r ∧ heap'.Points r x) r r)
    (hopen : c'.openRefs = heap.size :: c.openRefs)
    (hnamed : ∀ name r, c'.scopes.Names name r → c.scopes.Names name r)
    (hheld : c'.held ⊆ c.held) :
    Sound base heap' (c' :: cs) ∧ Extends base heap (c :: cs) heap' (c' :: cs) := by
  have hopenRefs : openRefs (c' :: cs) = heap.size :: openRefs (c :: cs) := by
    simp [openRefs, hopen]
  have hold : ∀ x y, x < heap.size → heap'.Points x y → heap.Points x y := by
    intro x y hx hxy
    unfold Heap.Points at hxy
    rw [hget x hx] at hxy
    exact hxy
  -- The new object is none of the old ones.
  have hmono : ∀ x, Completed base heap (c :: cs) x → Completed base heap' (c' :: cs) x := by
    intro x hx
    have hxlt := hx.lt_size
    refine ⟨hx.base_le, Nat.lt_trans hxlt hlt, ?_⟩
    rw [hopenRefs, List.mem_cons]
    rintro (heq | hmem)
    · lia
    · exact hx.not_open hmem
  have hstored : ∀ x y, base ≤ x → heap'.Points x y → Completed base heap' (c' :: cs) y := by
    intro x y hx hxy
    -- Old objects refer to what they did, and new ones to new ones behind the first.
    by_cases hxlt : x < heap.size
    · exact hmono y (h.stored x y hx (hold x y hxlt hxy))
    · rcases hnew x y (Nat.le_of_not_lt hxlt) hxy with ⟨hyle, hylt⟩
      refine ⟨Nat.le_trans h.base_le (Nat.le_of_lt hyle), hylt, ?_⟩
      rw [hopenRefs, List.mem_cons]
      rintro (heq | hmem)
      · lia
      · have := (h.opened y hmem).2
        lia
  refine ⟨⟨?_, ?_, ?_, ?_, ?_, hstored, hacyclic⟩, Nat.le_of_lt hlt, hmono,
    fun x hx _ => hget x hx, fun x y hx hxy => .inl (hold x y hx hxy)⟩
  · exact Nat.le_trans h.base_le (Nat.le_of_lt hlt)
  · rw [hopenRefs, List.nodup_cons]
    refine ⟨fun hmem => ?_, h.nodup⟩
    have := (h.opened _ hmem).2
    lia
  · intro x hx
    rw [hopenRefs, List.mem_cons] at hx
    rcases hx with rfl | hx
    · exact ⟨h.base_le, hlt⟩
    · exact ⟨(h.opened x hx).1, Nat.lt_trans (h.opened x hx).2 hlt⟩
  · intro d hd name x hx
    have hknown : Completed base heap (c :: cs) x ∧ (heap.get x).name = some name := by
      rcases List.mem_cons.1 hd with rfl | hd
      · exact h.named c List.mem_cons_self name x (hnamed name x hx)
      · exact h.named d (List.mem_cons_of_mem _ hd) name x hx
    rw [hget x hknown.1.lt_size]
    exact ⟨hmono x hknown.1, hknown.2⟩
  · intro d hd x hx
    rcases List.mem_cons.1 hd with rfl | hd
    · exact hmono x (h.held c List.mem_cons_self x (hheld hx))
    · exact hmono x (h.held d (List.mem_cons_of_mem _ hd) x hx)

/-- A new object without any field set. -/
theorem alloc (h : Sound base heap (c :: cs)) {i : Instance} (hslots : i.slots = .empty)
    (hopen : c'.openRefs = heap.size :: c.openRefs)
    (hnamed : ∀ name r, c'.scopes.Names name r → c.scopes.Names name r)
    (hheld : c'.held ⊆ c.held) :
    Sound base (heap.alloc i) (c' :: cs) ∧
      Extends base heap (c :: cs) (heap.alloc i) (c' :: cs) := by
  -- The new object refers to nothing.
  have hpoints : ∀ r x, (heap.alloc i).Points r x → r < heap.size ∧ heap.Points r x := by
    intro r x hx
    unfold Heap.Points at hx
    rw [Heap.get_alloc] at hx
    split at hx
    · exact absurd hx (Instance.not_holds_of_empty hslots x)
    · exact ⟨Heap.lt_size_of_points hx, hx⟩
  refine h.grow (by simp) ?_ ?_ ?_ hopen hnamed hheld
  · intro r hr
    rw [Heap.get_alloc, if_neg (by lia)]
  · intro r x hr hx
    exact absurd (hpoints r x hx).1 (Nat.not_lt_of_le hr)
  · intro r hcycle
    exact h.acyclic r
      (Relation.TransGen.mono (fun a b hab => ⟨hab.1, (hpoints a b hab.2).2⟩) _ _ hcycle)

/-- What a complete object reaches is complete. -/
theorem completed_of_reaches (h : Sound base heap cs) {fields : Instance → List FieldSpec}
    {x : Ref} (hr : Completed base heap cs r) (hreach : heap.Reaches fields r x) :
    Completed base heap cs x ∧
      Relation.ReflTransGen (fun r x => base ≤ r ∧ heap.Points r x) r x := by
  induction hreach with
  | refl => exact ⟨hr, .refl⟩
  | tail _ hlink ih =>
      have hpoints := Heap.points_of_linked hlink
      exact ⟨h.stored _ _ ih.1.base_le hpoints, ih.2.tail ⟨ih.1.base_le, hpoints⟩⟩

/-- A copy was made from something that the source reaches. -/
theorem reaches_origin (h : Sound base heap cs) {reg : Registry} {order : List Ref} {x : Ref}
    (hr : Completed base heap cs r) (horder : heap.preorder reg.fieldsOf [r] = order)
    (hx : heap.size ≤ x) (hlt : x < heap.size + order.length) :
    base ≤ Heap.origin heap.size order x ∧
      Relation.ReflTransGen (fun r x => base ≤ r ∧ heap.Points r x) r
        (Heap.origin heap.size order x) := by
  have hi : x - heap.size < order.length := by lia
  have hmem : Heap.origin heap.size order x ∈ heap.preorder reg.fieldsOf [r] := by
    rw [Heap.origin, if_neg (by lia), List.getD_eq_getElem _ _ hi, horder]
    exact List.getElem_mem hi
  rcases Heap.mem_preorder_iff.1 hmem with ⟨s, hs, hreach⟩
  rw [List.mem_singleton] at hs
  subst hs
  have hwalk := h.completed_of_reaches hr hreach
  exact ⟨hwalk.1.base_le, hwalk.2⟩

/-- Copies of a complete object and of what it reaches, of which the first one is open. -/
theorem copy (h : Sound base heap (c :: cs)) {reg : Registry} {copy : Ref}
    (hr : Completed base heap (c :: cs) r) (hcopy : heap.copy reg r true = .ok (heap', copy))
    {f : Instance → Instance} (hf : ∀ i, (f i).slots = i.slots)
    (hopen : c'.openRefs = copy :: c.openRefs)
    (hnamed : ∀ name r, c'.scopes.Names name r → c.scopes.Names name r)
    (hheld : c'.held ⊆ c.held) :
    Sound base (heap'.modify copy f) (c' :: cs) ∧
      Extends base heap (c :: cs) (heap'.modify copy f) (c' :: cs) := by
  rcases Heap.copy_eq_ok hcopy with ⟨rfl, hlt, hdeep⟩
  rcases Heap.preorder_eq_cons heap reg.fieldsOf r with ⟨rest, horder⟩
  rcases Heap.deepCopy_eq_ok horder hdeep with ⟨hsize, hsame, -⟩
  -- Renaming the first copy moves no arrow.
  have hpoints : ∀ x y, (heap'.modify heap.size f).Points x y → heap'.Points x y := by
    intro x y hxy
    unfold Heap.Points Instance.Holds at hxy ⊢
    rw [Heap.get_modify] at hxy
    split at hxy
    · rw [hf] at hxy
      exact hxy
    · exact hxy
  refine h.grow (by simpa using hlt) ?_ ?_ ?_ hopen hnamed hheld
  · intro x hx
    rw [Heap.get_modify, if_neg (by lia), hsame x hx]
  · intro x y hx hxy
    have hxy := hpoints x y hxy
    rcases Heap.points_of_deepCopy horder hdeep hxy hx with ⟨hyle, hylt, hover⟩
    rw [Heap.size_modify]
    refine ⟨Nat.lt_of_le_of_ne hyle ?_, hylt⟩
    -- A copy that refers to the first one comes from a cycle through the source.
    rintro rfl
    have hsource := h.reaches_origin hr horder hx (hsize ▸ Heap.lt_size_of_points hxy)
    have hback : Heap.origin heap.size (r :: rest) heap.size = r := by
      rw [Heap.origin, if_neg (Nat.lt_irrefl _), Nat.sub_self]
      rfl
    rw [hback] at hover
    exact h.acyclic r (Relation.TransGen.tail' hsource.2 ⟨hsource.1, hover⟩)
  -- A cycle through copies would be one through what they were made from.
  · intro x hcycle
    refine h.acyclic (Heap.origin heap.size (r :: rest) x)
      (Relation.TransGen.lift (Heap.origin heap.size (r :: rest)) ?_ _ _ hcycle)
    rintro a b ⟨ha, hab⟩
    have hab := hpoints a b hab
    change base ≤ Heap.origin heap.size (r :: rest) a ∧
      heap.Points (Heap.origin heap.size (r :: rest) a) (Heap.origin heap.size (r :: rest) b)
    by_cases halt : a < heap.size
    · unfold Heap.Points at hab
      rw [hsame a halt] at hab
      have hblt := (h.stored a b ha hab).lt_size
      rw [Heap.origin, Heap.origin, if_pos halt, if_pos hblt]
      exact ⟨ha, hab⟩
    · have hale : heap.size ≤ a := Nat.le_of_not_lt halt
      have hsource := h.reaches_origin hr horder hale (hsize ▸ Heap.lt_size_of_points hab)
      exact ⟨hsource.1, (Heap.points_of_deepCopy horder hdeep hab hale).2.2⟩

end Sound

end

end GraphText.Reader

import GraphText.Proofs.Writer.Expansion

/-!
# Outlines that can be read

Whoever reads a text from its beginning gives numbers to objects as they come,
and knows an object by name from where its body ends. So an object can be shown
by name only behind its own body, and not inside it. An outline in which this
is so is grounded. The outlines of graphs without cycles are: the first place
of an object is in front of every other one, and a place inside its own body
would be a way from the object back to it.

The other things that a reader relies on can be seen from the visits alone: that
the objects shown in full are numbered in order, and that a name by which an
object is shown is the name of no other object.

## Main definitions

* `fulls`: the objects that are shown in full.
* `Numbered`: the objects shown in full are numbered in order.
* `Named`: the names in an outline are those of its objects.
* `AcyclicFrom`: graphs without cycles.
* `Outline.Grounded`: what is shown by name has been shown in full before.
* `Outline.Follows`: what stands in a body is linked from its object.

## Theorems

* `numbered_append`, `numbered_idxOf`: numbers of visits one after another.
* `Outline.follows`: outlines of a graph follow its links.
* `Outline.grounded`: outlines that follow the links of graphs without cycles.
* `sole_of_short`: names by which objects are shown.
* `exists_legible`: the text of a graph without cycles.
-/

namespace GraphText.Writer

/-- The objects that some visits show in full, in order. -/
def fulls (vs : List Visit) : List Ref :=
  (vs.filter Visit.isFull).map Visit.ref

/-- The objects shown in full have the numbers from this one on. -/
def Numbered (place : Ref → Ref) (n : Nat) (vs : List Visit) : Prop :=
  (fulls vs).map place = List.range' n (fulls vs).length

/-- The objects are shown with their names, which are not empty, and by name only if no other object
    has the name. -/
def Named (names : Ref → Option String) (vs : List Visit) : Prop :=
  ∀ v ∈ vs, v.name = names v.ref ∧ v.name ≠ some "" ∧
    (v.isFull = false → ∀ x, names x = v.name → x = v.ref)

section

variable {place : Ref → Ref} {names : Ref → Option String} {n : Nat} {vs ws : List Visit}

theorem fulls_append (vs ws : List Visit) : fulls (vs ++ ws) = fulls vs ++ fulls ws := by
  unfold fulls
  rw [List.filter_append, List.map_append]

theorem numbered_append :
    Numbered place n (vs ++ ws) ↔
      Numbered place n vs ∧ Numbered place (n + (fulls vs).length) ws := by
  unfold Numbered
  rw [fulls_append, List.map_append, List.length_append, ← List.range'_append_1]
  constructor
  · intro h
    exact List.append_inj h (by simp)
  · rintro ⟨hv, hw⟩
    rw [hv, hw]

/-- The first object is numbered, and the others behind it. -/
theorem numbered_cons {r : Ref} {name : Option String} :
    Numbered place n (⟨r, name, true⟩ :: vs) ↔ place r = n ∧ Numbered place (n + 1) vs := by
  have hfulls : fulls (⟨r, name, true⟩ :: vs) = r :: fulls vs := rfl
  unfold Numbered
  rw [hfulls, List.map_cons, List.length_cons, List.range'_succ, List.cons.injEq]

/-- Counting through what is shown in full numbers it. -/
theorem numbered_idxOf (hnodup : (fulls vs).Nodup) (n : Nat) :
    Numbered (fun r => n + (fulls vs).idxOf r) n vs := by
  refine List.ext_getElem (by simp) fun i hi _ => ?_
  rw [List.length_map] at hi
  rw [List.getElem_map, List.getElem_range', Nat.one_mul]
  congr 1
  exact hnodup.idxOf_getElem i hi

theorem named_append : Named names (vs ++ ws) ↔ Named names vs ∧ Named names ws :=
  List.forall_mem_append

theorem Marked.of_append {seen : List Ref} (h : Marked seen (vs ++ ws)) :
    Marked seen vs ∧ Marked (seen ++ vs.map Visit.ref) ws := by
  induction vs generalizing seen with
  | nil => exact ⟨trivial, by simpa using h⟩
  | cons v vs ih =>
      rcases ih h.2 with ⟨hv, hw⟩
      refine ⟨⟨h.1, hv⟩, ?_⟩
      rw [List.append_assoc] at hw
      exact hw

end

/-- Whether nothing that can be reached lies on a cycle. -/
def AcyclicFrom (reg : Registry) (h : Heap) (root : Ref) : Prop :=
  ∀ x, h.Reaches reg.visibleOf root x → ¬ Relation.TransGen (h.Linked reg.visibleOf) x x

mutual

/-- What is shown by name is one of these objects or has been shown in full before, inside and out.
    -/
def Outline.Grounded (done : List Ref) : Outline → Prop
  | .use r _ => r ∈ done
  | .full _ _ _ lines => lines.Grounded done

def Lines.Grounded (done : List Ref) : Lines → Prop
  | .nil => True
  | .scalars _ _ rest => rest.Grounded done
  | .object _ o rest => o.Grounded done ∧ rest.Grounded (done ++ fulls o.visits)
  | .objects _ os rest => os.Grounded done ∧ rest.Grounded (done ++ fulls os.visits)

def Elements.Grounded (done : List Ref) : Elements → Prop
  | .nil => True
  | .cons o rest => o.Grounded done ∧ rest.Grounded (done ++ fulls o.visits)

end

mutual

/-- The outline shows this object, and whatever stands in the body of an object follows it by a
    link. -/
def Outline.Follows (links : Ref → Ref → Prop) : Outline → Ref → Prop
  | .use x _, r => x = r
  | .full x _ _ lines, r => x = r ∧ lines.Follows links r

def Lines.Follows (links : Ref → Ref → Prop) : Lines → Ref → Prop
  | .nil, _ => True
  | .scalars _ _ rest, r => rest.Follows links r
  | .object _ o rest, r => (∃ x, links r x ∧ o.Follows links x) ∧ rest.Follows links r
  | .objects _ os rest, r => os.Follows links r ∧ rest.Follows links r

def Elements.Follows (links : Ref → Ref → Prop) : Elements → Ref → Prop
  | .nil, _ => True
  | .cons o rest, r => (∃ x, links r x ∧ o.Follows links x) ∧ rest.Follows links r

end

section

variable {reg : Registry} {h : Heap} {root : Ref}

/-- The objects in the written fields are linked. -/
theorem linked_of_writtenFields {r x : Ref} {line : FieldSpec × List Value}
    (hline : line ∈ writtenFields reg (h.get r)) (hx : x ∈ line.2.flatMap Value.refs) :
    h.Linked reg.visibleOf r x := by
  unfold Heap.Linked
  rw [children_eq_writtenFields]
  exact List.mem_flatMap.2 ⟨line, hline, hx⟩

mutual

/-- An outline of a graph follows its links. -/
theorem Outline.follows (o : Outline) {r : Ref} (hdraws : o.Draws reg h r) :
    o.Follows (h.Linked reg.visibleOf) r := by
  cases o with
  | use x name => exact hdraws
  | full x type name lines =>
      rcases hdraws with ⟨hx, -, hlines⟩
      exact ⟨hx, lines.follows hlines fun line hline y => linked_of_writtenFields hline⟩

theorem Lines.follows (ls : Lines) {r : Ref} {fields : List (FieldSpec × List Value)}
    (hdraws : ls.Draws reg h fields)
    (hfields : ∀ line ∈ fields, ∀ x ∈ line.2.flatMap Value.refs, h.Linked reg.visibleOf r x) :
    ls.Follows (h.Linked reg.visibleOf) r := by
  cases ls with
  | nil => trivial
  | scalars field vs rest =>
      rcases hdraws with ⟨others, rfl, -, hrest⟩
      exact rest.follows hrest fun line hline => hfields line (List.mem_cons_of_mem _ hline)
  | object field o rest =>
      rcases hdraws with ⟨x, others, rfl, ho, hrest⟩
      exact ⟨⟨x, hfields _ List.mem_cons_self x (by simp [Value.refs]), o.follows ho⟩,
        rest.follows hrest fun line hline => hfields line (List.mem_cons_of_mem _ hline)⟩
  | objects field os rest =>
      rcases hdraws with ⟨rs, others, rfl, hos, hrest⟩
      have hlinks : ∀ x ∈ rs, h.Linked reg.visibleOf r x :=
        fun x hx => hfields _ List.mem_cons_self x (by simpa [Value.refs] using hx)
      exact ⟨os.follows hos hlinks,
        rest.follows hrest fun line hline => hfields line (List.mem_cons_of_mem _ hline)⟩

theorem Elements.follows (os : Elements) {r : Ref} {rs : List Ref} (hdraws : os.Draws reg h rs)
    (hlinks : ∀ x ∈ rs, h.Linked reg.visibleOf r x) :
    os.Follows (h.Linked reg.visibleOf) r := by
  cases os with
  | nil => trivial
  | cons o rest =>
      rcases hdraws with ⟨x, others, rfl, ho, hrest⟩
      exact ⟨⟨x, hlinks x List.mem_cons_self, o.follows ho⟩,
        rest.follows hrest fun y hy => hlinks y (List.mem_cons_of_mem _ hy)⟩

end

/-- Behind some visits, what has been seen is done or lies around the place. -/
theorem seen_append {seen done : List Ref} {vs : List Visit} {around : Ref → Prop}
    (hmarked : Marked seen vs) (hseen : ∀ x ∈ seen, x ∈ done ∨ around x) :
    ∀ x ∈ seen ++ vs.map Visit.ref, x ∈ done ++ fulls vs ∨ around x := by
  intro x hx
  by_cases hold : x ∈ seen
  · exact (hseen x hold).imp_left (List.mem_append_left _)
  · have hnew := (List.mem_append.1 hx).resolve_left hold
    exact .inl (List.mem_append_right _ ((hmarked.mem_iff x).2 ⟨hnew, hold⟩))

mutual

/-- An outline that follows the links of a graph without cycles, if what has been seen is done or
    lies around it. -/
theorem Outline.grounded (o : Outline) (hacyclic : AcyclicFrom reg h root)
    {seen done : List Ref} {r : Ref} (hfollows : o.Follows (h.Linked reg.visibleOf) r)
    (hreach : h.Reaches reg.visibleOf root r) (hmarked : Marked seen o.visits)
    (hseen : ∀ x ∈ seen, x ∈ done ∨ Relation.TransGen (h.Linked reg.visibleOf) x r) :
    o.Grounded done := by
  cases o with
  | use x name =>
      cases hfollows
      -- An object inside its own body would be on a cycle.
      have hold : r ∈ seen := by simpa using hmarked.1
      exact (hseen r hold).resolve_right (hacyclic r hreach)
  | full x type name lines =>
      rcases hfollows with ⟨rfl, hlines⟩
      refine lines.grounded hacyclic hlines hreach hmarked.2 fun y hy => ?_
      rcases List.mem_append.1 hy with hy | hy
      · exact (hseen y hy).imp_right Relation.TransGen.to_reflTransGen
      · rw [List.mem_singleton.1 hy]
        exact .inr .refl

theorem Lines.grounded (ls : Lines) (hacyclic : AcyclicFrom reg h root)
    {seen done : List Ref} {r : Ref} (hfollows : ls.Follows (h.Linked reg.visibleOf) r)
    (hreach : h.Reaches reg.visibleOf root r) (hmarked : Marked seen ls.visits)
    (hseen : ∀ x ∈ seen, x ∈ done ∨ Relation.ReflTransGen (h.Linked reg.visibleOf) x r) :
    ls.Grounded done := by
  cases ls with
  | nil => trivial
  | scalars field vs rest => exact rest.grounded hacyclic hfollows hreach hmarked hseen
  | object field o rest =>
      rcases hfollows with ⟨⟨x, hlink, ho⟩, hrest⟩
      rcases hmarked.of_append with ⟨hmarkedo, hmarkedrest⟩
      refine ⟨o.grounded hacyclic ho (hreach.tail hlink) hmarkedo fun y hy => ?_, ?_⟩
      · exact (hseen y hy).imp_right fun hy => Relation.TransGen.tail' hy hlink
      · exact rest.grounded hacyclic hrest hreach hmarkedrest (seen_append hmarkedo hseen)
  | objects field os rest =>
      rcases hfollows with ⟨hos, hrest⟩
      rcases hmarked.of_append with ⟨hmarkedos, hmarkedrest⟩
      exact ⟨os.grounded hacyclic hos hreach hmarkedos hseen,
        rest.grounded hacyclic hrest hreach hmarkedrest (seen_append hmarkedos hseen)⟩

theorem Elements.grounded (os : Elements) (hacyclic : AcyclicFrom reg h root)
    {seen done : List Ref} {r : Ref} (hfollows : os.Follows (h.Linked reg.visibleOf) r)
    (hreach : h.Reaches reg.visibleOf root r) (hmarked : Marked seen os.visits)
    (hseen : ∀ x ∈ seen, x ∈ done ∨ Relation.ReflTransGen (h.Linked reg.visibleOf) x r) :
    os.Grounded done := by
  cases os with
  | nil => trivial
  | cons o rest =>
      rcases hfollows with ⟨⟨x, hlink, ho⟩, hrest⟩
      rcases hmarked.of_append with ⟨hmarkedo, hmarkedrest⟩
      refine ⟨o.grounded hacyclic ho (hreach.tail hlink) hmarkedo fun y hy => ?_, ?_⟩
      · exact (hseen y hy).imp_right fun hy => Relation.TransGen.tail' hy hlink
      · exact rest.grounded hacyclic hrest hreach hmarkedrest (seen_append hmarkedo hseen)

end

/-- The visits that are not in full show what is met more than once, if no object is visited more
    often than the walk arrives at it. -/
theorem shared_of_short {vs : List Visit} (hmarked : Marked [] vs) {v : Visit} (hv : v ∈ vs)
    (hcount : (vs.map Visit.ref).count v.ref ≤ (h.arrivals reg.visibleOf [root]).count v.ref)
    (hshort : v.isFull = false) : IsShared reg h root v.ref := by
  rcases List.append_of_mem hv with ⟨before, after, rfl⟩
  -- A visit that is not in full has another one before it.
  have hseen : v.ref ∈ before.map Visit.ref := by
    refine Decidable.byContradiction fun hnew => ?_
    rw [hmarked.isFull_iff.2 (by simpa using hnew)] at hshort
    cases hshort
  have hbefore := List.count_pos_iff.2 hseen
  rw [List.map_append, List.map_cons, List.count_append, List.count_cons_self] at hcount
  unfold IsShared
  omega

/-- A name by which an object is shown is the name of no other object. -/
theorem sole_of_short {vs : List Visit} (hmarked : Marked [] vs) {v : Visit} (hv : v ∈ vs)
    (hcount : (vs.map Visit.ref).count v.ref ≤ (h.arrivals reg.visibleOf [root]).count v.ref)
    (hshort : v.isFull = false) (hname : v.name = (surveyOf reg h root).name? v.ref) {x : Ref}
    (hx : (surveyOf reg h root).name? x = v.name) : x = v.ref := by
  have hshared := shared_of_short hmarked hv hcount hshort
  have hreach : h.Reaches reg.visibleOf root v.ref := by
    have harrives : v.ref ∈ h.arrivals reg.visibleOf [root] :=
      List.count_pos_iff.1 (Nat.lt_trans Nat.zero_lt_one hshared)
    simpa using Heap.mem_arrivals_iff.1 harrives
  -- What is shared has a name, and one of its own.
  rcases Option.isSome_iff_exists.1 (named_of_shared hreach hshared) with ⟨name, hnamed⟩
  rw [hname, hnamed] at hx
  exact name?_injective hreach hshared hnamed hx

/-- The text of a graph without cycles is that of an outline that can be read. -/
theorem exists_legible
    (hregistered : ∀ r, h.Reaches reg.visibleOf root r →
      reg.contains (h.get r).typeName = true)
    (hshaped : ∀ r, h.Reaches reg.visibleOf root r →
      ∀ line ∈ writtenFields reg (h.get r), IsShaped line.2)
    (hempty : ∀ r, h.Reaches reg.visibleOf root r → (h.get r).name ≠ some "")
    (hacyclic : AcyclicFrom reg h root) :
    ∃ o : Outline, objectText? reg h root = .ok (o.text 0 ++ "\n") ∧ o.Draws reg h root ∧
      Named (surveyOf reg h root).name? o.visits ∧ o.Grounded [] ∧ (fulls o.visits).Nodup ∧
      ∀ r, r ∈ fulls o.visits ↔ h.Reaches reg.visibleOf root r := by
  rcases exists_outline hregistered hshaped with ⟨o, p, htext, hdraws, hwrites⟩
  have hrefs := hwrites.refs_eq
  have hreach : ∀ r, r ∈ o.visits.map Visit.ref ↔ h.Reaches reg.visibleOf root r := by
    intro r
    rw [hrefs, Heap.mem_arrivals_iff]
    simp
  refine ⟨o, htext, hdraws, fun v hv => ?_, ?_, hwrites.marked.nodup, fun r => ?_⟩
  · -- Only shared objects are shown by name, and no other object has the name of a shared one.
    have hname := hwrites.named v hv
    have hvreach := (hreach v.ref).1 (List.mem_map.2 ⟨v, hv, rfl⟩)
    exact ⟨hname, hname ▸ name?_ne_empty hvreach (hempty _ hvreach), fun hshort x hx =>
      sole_of_short hwrites.marked hv (Nat.le_of_eq (by rw [hrefs])) hshort hname hx⟩
  · exact o.grounded hacyclic (o.follows hdraws) .refl hwrites.marked (fun x hx => nomatch hx)
  · rw [← hreach]
    exact (hwrites.marked.mem_iff r).trans (by simp)

end

end GraphText.Writer

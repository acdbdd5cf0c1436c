import GraphText.Proofs.Writer.Names
import Mathlib.Algebra.GroupWithZero.Nat

/-!
# Names by which objects are found again

What the survey promises to those who write and read: an object that is met more
than once has a name, and this name leads to no other object. The survey itself
only counts the arrivals of a walk. How often a walk arrives at an object does
not depend on the walk, though. It is the number of times that the object is a
root or that an object of the graph refers to it, and so the promise is one about
the graph.

It holds for the objects below any roots, since a single field may hold several.

## Main definitions

* `Heap.meetings`: how often a graph leads to an object.
* `IsContested`: the objects that cannot keep their own names.

## Theorems

* `Heap.count_arrivals`: a walk arrives as often as the graph leads there.
* `survey_identifies`: what the names of a survey are good for.
-/

namespace GraphText

/-- How often the graph below some roots leads to an object: once for every time that it is a root,
    and once for every time that an object of the graph refers to it. -/
def Heap.meetings (h : Heap) (fields : Instance → List FieldSpec) (roots : List Ref) (r : Ref) :
    Nat :=
  roots.count r + ((h.preorder fields roots).map fun x => (h.children fields x).count r).sum

theorem Heap.count_arrivals (h : Heap) (fields : Instance → List FieldSpec) (roots : List Ref)
    (r : Ref) : (h.arrivals fields roots).count r = h.meetings fields roots r := by
  rw [(h.arrivals_perm fields roots).count_eq, List.count_append, List.count_flatMap]
  rfl

namespace Writer

/-- Whether the graph below some roots leads to an object more than once. -/
def isMetAgain (reg : Registry) (h : Heap) (roots : List Ref) (r : Ref) : Bool :=
  1 < h.meetings reg.visibleOf roots r

/-- Whether an object below some roots is met more than once while another one has its name. -/
def IsContested (reg : Registry) (h : Heap) (roots : List Ref) (r : Ref) (name : String) : Prop :=
  1 < h.meetings reg.visibleOf roots r ∧
    ∃ root ∈ roots, ∃ x, h.Reaches reg.visibleOf root x ∧ x ≠ r ∧ (h.get x).name = some name

section

variable {reg : Registry} {h : Heap} {roots : List Ref} {r : Ref}

theorem mem_order_below_iff :
    r ∈ (surveyBelow reg h roots).order ↔ ∃ root ∈ roots, h.Reaches reg.visibleOf root r :=
  Heap.mem_preorder_iff

theorem nodup_order_below : (surveyBelow reg h roots).order.Nodup :=
  Heap.nodup_preorder roots

/-- The names of a survey are chosen among its objects, by how often the graph leads to them. -/
theorem name?_below (reg : Registry) (h : Heap) (roots : List Ref) (r : Ref) :
    (surveyBelow reg h roots).name? r =
      chosen? h (isMetAgain reg h roots) (surveyBelow reg h roots).order r := by
  have hcount : isMetAgain reg h roots = fun r => 1 < (h.arrivals reg.visibleOf roots).count r := by
    funext r
    rw [isMetAgain, ← Heap.count_arrivals]
  rw [hcount]
  rfl

/-- Of the objects that have names, those are contested that are met more than once and are not the
    only ones of their name. -/
theorem isContested_iff {name : String} (hname : (h.get r).name = some name) :
    IsContested reg h roots r name ↔
      isMetAgain reg h roots r = true ∧ ¬ IsSoleAmong h (surveyBelow reg h roots).order r := by
  rw [isMetAgain, decide_eq_true_iff]
  refine and_congr_right fun _ => ⟨?_, ?_⟩
  · rintro ⟨root, hroot, x, hx, hne, hother⟩ ⟨own, hown, honly⟩
    rw [hname, Option.some.injEq] at hown
    exact hne (honly x (mem_order_below_iff.2 ⟨root, hroot, hx⟩) (hown ▸ hother))
  · intro hshared
    refine Classical.byContradiction fun hnone => hshared ⟨name, hname, fun x hx hother => ?_⟩
    refine Classical.byContradiction fun hne => ?_
    rcases mem_order_below_iff.1 hx with ⟨root, hroot, hreach⟩
    exact hnone ⟨root, hroot, x, hreach, hne, hother⟩

/-- A graph of registered types has a survey. By it, an object that is met more than once has a name
    that is the name of no other object. An object keeps its own name unless it is contested, and an
    object without a name gets one only if it is met more than once. -/
theorem survey_identifies
    (hregistered : ∀ root ∈ roots, ∀ r, h.Reaches reg.visibleOf root r →
      reg.contains (h.get r).typeName = true) :
    ∃ s, Survey.ofRoots reg h roots = .ok s ∧
      ∀ root ∈ roots, ∀ r, h.Reaches reg.visibleOf root r →
        (1 < h.meetings reg.visibleOf roots r →
          ∃ name, s.name? r = some name ∧ ∀ x, s.name? x = some name → x = r) ∧
        (∀ name, (h.get r).name = some name →
          (s.name? r = some name ↔ ¬ IsContested reg h roots r name)) ∧
        ((h.get r).name = none →
          (s.name? r = none ↔ ¬ 1 < h.meetings reg.visibleOf roots r)) := by
  refine ⟨_, ofRoots_eq_ok_of_registered hregistered, fun root hroot r hr => ?_⟩
  have hmem := mem_order_below_iff.2 ⟨root, hroot, hr⟩
  have hnodup : (surveyBelow reg h roots).order.Nodup := nodup_order_below
  simp only [name?_below]
  -- What the survey chooses among all surveyed objects is what it says of each.
  refine ⟨fun hshared => ?_, fun name hname => ?_, fun hname => ?_⟩
  · have hmany : isMetAgain reg h roots r = true := decide_eq_true hshared
    rcases Option.isSome_iff_exists.1 (isSome_chosen?_of_shared hnodup hmem hmany) with
      ⟨name, hchosen⟩
    exact ⟨name, hchosen, fun x hx => chosen?_injective hnodup hmem hmany hchosen hx⟩
  · rw [isContested_iff hname]
    constructor
    · -- A new name is none of those that objects have, so what has its own name kept it.
      intro hkept hnew
      rcases chosen?_of_renamed hnodup hmem hnew with ⟨other, hother, hfree, -⟩
      rw [hkept, Option.some.injEq] at hother
      refine hfree (hother ▸ List.mem_eraseDups.2 (List.mem_filterMap.2 ⟨r, hmem, hname⟩))
    · intro hkept
      rw [chosen?_of_kept hnodup hmem hkept, hname]
  · constructor
    · intro hnone hshared
      have hmany : isMetAgain reg h roots r = true := decide_eq_true hshared
      have hsome : (chosen? h (isMetAgain reg h roots) _ r).isSome = true :=
        isSome_chosen?_of_shared hnodup hmem hmany
      rw [hnone] at hsome
      cases hsome
    · intro hshort
      rw [chosen?_of_kept hnodup hmem fun hnew => hshort (of_decide_eq_true hnew.1), hname]

end

/-- A node that lists four others: one without a name and one of two that have the same name twice,
    and one whose name looks like a new one. -/
def namesakes : Heap :=
  ⟨#[{ typeName := "Node"
       slots := Table.empty.insert "all" (.values [.objects [1, 2, 3, 2, 1, 4]]) },
     { typeName := "Node" },
     { typeName := "Node", name := some "X" },
     { typeName := "Node", name := some "X" },
     { typeName := "Node", name := some "X_1" }]⟩

theorem arrivals_namesakes :
    namesakes.arrivals Registry.nodes.visibleOf [0] = [0, 1, 2, 3, 2, 1, 4] := by
  have hlisted : namesakes.children Registry.nodes.visibleOf 0 = [1, 2, 3, 2, 1, 4] := by decide
  have hleaf : ∀ r ∈ [1, 2, 3, 4], namesakes.children Registry.nodes.visibleOf r = [] := by decide
  have hsize : namesakes.size = 5 := rfl
  simp [Heap.arrivals, Heap.arrivalsFrom, hsize, hlisted, hleaf]

/-- What is listed twice gets a name of its own, and the other one keeps what they both have. -/
theorem survey_identifies_namesakes :
    (∀ root ∈ [0], ∀ r, namesakes.Reaches Registry.nodes.visibleOf root r →
      Registry.nodes.contains (namesakes.get r).typeName = true) ∧
    ∃ s, Survey.ofRoots .nodes namesakes [0] = .ok s ∧ s.name? 0 = none ∧
      (∃ name, s.name? 1 = some name ∧ ∀ x, s.name? x = some name → x = 1) ∧
      (∃ name, s.name? 2 = some name ∧ name ≠ "X" ∧ ∀ x, s.name? x = some name → x = 2) ∧
      s.name? 3 = some "X" ∧ s.name? 4 = some "X_1" := by
  have hreaches : ∀ r, namesakes.Reaches Registry.nodes.visibleOf 0 r ↔
      r ∈ [0, 1, 2, 3, 2, 1, 4] := by
    intro r
    rw [← arrivals_namesakes, Heap.mem_arrivals_iff]
    simp
  have hregistered : ∀ root ∈ [0], ∀ r, namesakes.Reaches Registry.nodes.visibleOf root r →
      Registry.nodes.contains (namesakes.get r).typeName = true := by
    intro root hroot r hr
    rw [List.mem_singleton.1 hroot, hreaches] at hr
    have hall : ∀ r ∈ [0, 1, 2, 3, 2, 1, 4],
        Registry.nodes.contains (namesakes.get r).typeName = true := by
      decide
    exact hall r hr
  have hmeetings : ∀ r, namesakes.meetings Registry.nodes.visibleOf [0] r =
      [0, 1, 2, 3, 2, 1, 4].count r := by
    intro r
    rw [← Heap.count_arrivals, arrivals_namesakes]
  rcases survey_identifies hregistered with ⟨s, hs, hnames⟩
  have hnames := fun r hr => hnames 0 List.mem_cons_self r ((hreaches r).2 hr)
  simp only [hmeetings, IsContested] at hnames
  refine ⟨hregistered, s, hs, ?_, ?_, ?_, ?_, ?_⟩
  · exact ((hnames 0 (by decide)).2.2 rfl).2 (by decide)
  · exact (hnames 1 (by decide)).1 (by decide)
  · -- Another object has the same name, so this one does not keep it.
    rcases (hnames 2 (by decide)).1 (by decide) with ⟨name, hname, honly⟩
    refine ⟨name, hname, ?_, honly⟩
    rintro rfl
    have hother : namesakes.Reaches Registry.nodes.visibleOf 0 3 := (hreaches 3).2 (by decide)
    exact ((hnames 2 (by decide)).2.1 "X" rfl).1 hname
      ⟨by decide, 0, List.mem_cons_self, 3, hother, by decide, rfl⟩
  · exact ((hnames 3 (by decide)).2.1 "X" rfl).2 fun hcontested => absurd hcontested.1 (by decide)
  · exact ((hnames 4 (by decide)).2.1 "X_1" rfl).2 fun hcontested =>
      absurd hcontested.1 (by decide)

end Writer

end GraphText

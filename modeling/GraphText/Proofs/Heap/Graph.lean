import GraphText.Heap.Preorder
import Mathlib.Logic.Relation

/-!
# Graphs of objects

Which objects an object refers to, and what that makes of a heap: a graph. Two
views of it are needed. The raw view follows everything that an object keeps,
whatever the types say, and is the one in which cycles are looked for. The view
through fields follows what can be fetched, and is the one of the walks; every
arrow of it is an arrow of the raw view.

A store adds arrows out of one object only. As long as nothing leads to that
object, no store can close a cycle, and `acyclic_of_source` is the whole reason
why graphs that are built from complete parts have none.

## Main definitions

* `Content.refs`, `Instance.Holds`: the objects that an object refers to.
* `Heap.Points`: the arrows of a heap.
* `Heap.Linked`: the arrows through some fields.
* `Registry.nodes`, `Heap.ring`: the types of the graphs in examples, and such a graph.

## Theorems

* `Heap.points_of_linked`: what can be fetched is kept.
* `Heap.get_of_store`: what a store does to every object.
* `Heap.points_of_store`: the arrows that a store adds.
* `acyclic_of_source`: new arrows out of an object that nothing leads to.
-/

namespace GraphText

/-- A scalar refers to nothing. -/
theorem Value.refs_of_type {type : ScalarType} {v : Value} (h : v.type = .scalar type) :
    v.refs = [] := by
  cases v with
  | object | objects => cases h
  | bool | int | uint | float | string => rfl

/-- The objects that a content refers to. -/
def Content.refs : Content → List Ref
  | .values vs => vs.flatMap Value.refs
  | .bits _ => []

/-- Whether an object refers to another one, through any field whatsoever. -/
def Instance.Holds (i : Instance) (x : Ref) : Prop :=
  ∃ name content, i.slots.find? name = some content ∧ x ∈ content.refs

namespace FieldKind

/-- What is fetched refers to what the content refers to. -/
theorem refs_of_fetch {kind : FieldKind} {content : Content} {vs : List Value}
    (h : kind.fetch? content = some vs) : vs.flatMap Value.refs = content.refs := by
  cases content with
  | bits b =>
      cases kind <;> simp only [fetch?, reduceCtorEq, Option.some.injEq] at h
      rw [← h]
      rfl
  | values ws =>
      have hvs : vs = ws := by
        cases kind <;> simp only [fetch?, reduceCtorEq, Option.some.injEq] at h <;> exact h.symm
      rw [hvs]
      rfl

/-- What is kept refers to nothing but what the stored values refer to. -/
theorem refs_of_store {kind : FieldKind} {field : String} {vs : List Value} {content : Content}
    (h : kind.store? field vs = .ok content) : content.refs ⊆ vs.flatMap Value.refs := by
  cases kind with
  | scalar type =>
      rcases bind_eq_ok h with ⟨_, _, h⟩
      split at h
      · cases h; exact fun _ hx => hx
      · simp at h
  | array type count =>
      rcases bind_eq_ok h with ⟨_, _, h⟩
      split at h
      · cases h; exact fun _ hx => hx
      · simp at h
  | list type =>
      rcases bind_eq_ok h with ⟨_, _, h⟩
      cases h
      exact fun _ hx => hx
  | choice names =>
      rcases bind_eq_ok h with ⟨_, _, h⟩
      cases h
      simp [Content.refs, Value.refs]
  | flags table =>
      rcases bind_eq_ok h with ⟨_, _, h⟩
      cases h
      simp [Content.refs]
  | object required =>
      simp only [store?] at h
      split at h
      · cases h; exact fun _ hx => hx
      · simp at h
  | objects required =>
      simp only [store?] at h
      split at h
      · cases h; exact fun _ hx => hx
      · simp at h
  | raw type arity =>
      cases h
      exact fun _ hx => hx

end FieldKind

namespace Instance

theorem holds_of_fetch {i : Instance} {field : FieldSpec} {vs : List Value} {x : Ref}
    (h : i.fetch? field = some vs) (hx : x ∈ vs.flatMap Value.refs) : i.Holds x := by
  rcases Option.bind_eq_some_iff.1 h with ⟨content, hcontent, hfetch⟩
  exact ⟨field.name, content, hcontent, FieldKind.refs_of_fetch hfetch ▸ hx⟩

/-- A store puts one content into the slots. -/
theorem store_eq_ok {i j : Instance} {field : FieldSpec} {vs : List Value}
    (h : i.store field vs = .ok j) :
    ∃ content, field.kind.store? field.name vs = .ok content ∧
      j = { i with slots := i.slots.insert field.name content } := by
  unfold store at h
  cases hs : field.kind.store? field.name vs with
  | error e => simp [hs, Except.map] at h
  | ok content =>
      simp only [hs, Except.map, Except.ok.injEq] at h
      exact ⟨content, rfl, h.symm⟩

/-- Behind a store an object holds what it held, and what was stored. -/
theorem holds_of_store {i j : Instance} {field : FieldSpec} {vs : List Value} {x : Ref}
    (h : i.store field vs = .ok j) (hx : j.Holds x) : i.Holds x ∨ x ∈ vs.flatMap Value.refs := by
  rcases store_eq_ok h with ⟨content, hcontent, rfl⟩
  rcases hx with ⟨name, kept, hfind, hmem⟩
  rw [Table.find?_insert] at hfind
  by_cases hname : name = field.name
  · rw [if_pos hname, Option.some.injEq] at hfind
    rw [← hfind] at hmem
    exact .inr (FieldKind.refs_of_store hcontent hmem)
  · rw [if_neg hname] at hfind
    exact .inl ⟨name, kept, hfind, hmem⟩

theorem not_holds_of_empty {i : Instance} (h : i.slots = .empty) (x : Ref) : ¬ i.Holds x := by
  rintro ⟨name, content, hfind, -⟩
  rw [h, Table.find?_empty] at hfind
  cases hfind

end Instance

namespace Heap

/-- Whether an object refers to another one. -/
def Points (h : Heap) (r x : Ref) : Prop :=
  (h.get r).Holds x

/-- Whether an object refers to another one through some fields. -/
def Linked (h : Heap) (fields : Instance → List FieldSpec) (r x : Ref) : Prop :=
  x ∈ h.children fields r

/-- What can be fetched is kept. -/
theorem points_of_linked {h : Heap} {fields : Instance → List FieldSpec} {r x : Ref}
    (hx : h.Linked fields r x) : h.Points r x := by
  rcases List.mem_flatMap.1 hx with ⟨field, -, hx⟩
  cases hf : (h.get r).fetch? field with
  | none => simp [hf] at hx
  | some vs =>
      rw [hf] at hx
      exact Instance.holds_of_fetch hf hx

theorem not_points_of_size_le {h : Heap} {r : Ref} (hr : h.size ≤ r) (x : Ref) :
    ¬ h.Points r x := by
  unfold Points
  rw [get_of_size_le hr]
  exact Instance.not_holds_of_empty rfl x

theorem lt_size_of_points {h : Heap} {r x : Ref} (hx : h.Points r x) : r < h.size :=
  Nat.lt_of_not_le fun hr => not_points_of_size_le hr x hx

/-- What a store does to every object. -/
theorem get_of_store {h h' : Heap} {r : Ref} {field : FieldSpec} {vs : List Value}
    (hstore : h.store r field vs = .ok h') :
    h'.size = h.size ∧ ∃ j, (h.get r).store field vs = .ok j ∧
      ∀ x, h'.get x = if x = r ∧ r < h.size then j else h.get x := by
  unfold store at hstore
  cases hs : (h.get r).store field vs with
  | error e => simp [hs, Except.map] at hstore
  | ok j =>
      simp only [hs, Except.map, Except.ok.injEq] at hstore
      rw [← hstore]
      exact ⟨size_modify .., j, rfl, fun x => get_modify ..⟩

/-- A store leaves all other objects as they are. -/
theorem get_of_store_ne {h h' : Heap} {r x : Ref} {field : FieldSpec} {vs : List Value}
    (hstore : h.store r field vs = .ok h') (hx : x ≠ r) : h'.get x = h.get x := by
  rcases get_of_store hstore with ⟨-, j, -, hget⟩
  rw [hget, if_neg (fun h => hx h.1)]

/-- The arrows behind a store are those before it and those to the stored values. -/
theorem points_of_store {h h' : Heap} {r y x : Ref} {field : FieldSpec} {vs : List Value}
    (hstore : h.store r field vs = .ok h') (hx : h'.Points y x) :
    h.Points y x ∨ (y = r ∧ x ∈ vs.flatMap Value.refs) := by
  rcases get_of_store hstore with ⟨-, j, hj, hget⟩
  unfold Points at hx
  rw [hget] at hx
  split at hx
  next hy =>
    rcases Instance.holds_of_store hj hx with hold | hnew
    · rw [← hy.1] at hold
      exact .inl hold
    · exact .inr ⟨hy.1, hnew⟩
  · exact .inl hx

end Heap

/-- New arrows out of an object that nothing leads to close no cycle. -/
theorem acyclic_of_source {α : Type} {before after : α → α → Prop} {r : α}
    (hsource : ∀ x, ¬ after x r) (hsame : ∀ x y, x ≠ r → after x y → before x y)
    (hacyclic : ∀ x, ¬ Relation.TransGen before x x) (x : α) :
    ¬ Relation.TransGen after x x := by
  intro hcycle
  have htarget : ∀ y z, Relation.TransGen after y z → z ≠ r := by
    rintro y z hyz rfl
    cases hyz with
    | single hlast => exact hsource _ hlast
    | tail _ hlast => exact hsource _ hlast
  have hpath : ∀ y, Relation.TransGen after x y → Relation.TransGen before x y := by
    intro y hy
    induction hy with
    | single hfirst => exact .single (hsame _ _ (htarget _ _ hcycle) hfirst)
    | tail hfront hlast ih => exact ih.tail (hsame _ _ (htarget _ _ hfront) hlast)
  exact hacyclic x (hpath x hcycle)

/-- One type, of objects that refer to one and to several others. -/
def Registry.nodes : Registry :=
  ⟨[{ typeName := "Node"
      fields := [⟨"next", .object none, false⟩, ⟨"all", .objects (some "Node"), false⟩] }]⟩

/-- Two nodes that refer to each other, the first of which also lists itself. -/
def Heap.ring : Heap :=
  ⟨#[{ typeName := "Node", slots := Table.empty.insert "all" (.values [.objects [1, 0]]) },
     { typeName := "Node", slots := Table.empty.insert "next" (.values [.object 0]) }]⟩

end GraphText

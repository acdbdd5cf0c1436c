import GraphText.Proofs.Heap.Typed
import GraphText.Proofs.Reader.Names
import GraphText.Proofs.Reader.Phrase
import Mathlib.Data.List.Forall2

/-!
# What the scopes of a reader are known to hold

A check of a phrase goes on with scopes in which numbers stand for types, and the
reader with scopes that hold objects. The two are alike if under every name there
is an object in the one exactly where there is its type in the other. All that is
done to scopes can be done on both sides, so they stay alike, and so they do when
the heap grows and no object changes its type or its name.

## Main definitions

* `Table.Like`, `Scopes.Like`: tables and scopes with related entries.
* `Heap.HasType`: an object whose type has a number.
* `Heap.KeepsHeads`: no object changes its type or its name.

## Theorems

* `Scopes.Like.resolve?`, `Scopes.Like.template?`: names lead to related entries.
* `Scopes.Like.keep`: scopes stay alike while objects keep their types.
* `exists_resolve`: a name leads to an object of the type that it is known to lead to.
-/

namespace GraphText

/-- Tables with related entries under the same names. -/
def Table.Like {α β : Type} (R : α → β → Prop) (t : Table α) (u : Table β) : Prop :=
  ∀ name, Option.Rel R (t.find? name) (u.find? name)

/-- Scopes with related objects and related templates. -/
structure Scope.Like (R : Ref → Ref → Prop) (s t : Scope) : Prop where
  objects : s.objects.Like R t.objects
  templates : s.templates.Like R t.templates

/-- As many open scopes, with related entries. -/
structure Scopes.Like (R : Ref → Ref → Prop) (s t : Scopes) : Prop where
  bodies : List.Forall₂ (Scope.Like R) s.bodies t.bodies
  outermost : s.outermost.Like R t.outermost
  document : s.document.Like R t.document

section

variable {R R' : Ref → Ref → Prop} {s t : Scopes} {name : String} {r n : Ref}

theorem rel_imp {α β : Type} {R R' : α → β → Prop} {a : Option α} {b : Option β}
    (h : Option.Rel R a b) (hR : ∀ x y, R x y → R' x y) : Option.Rel R' a b := by
  cases h with
  | some hrel => exact .some (hR _ _ hrel)
  | none => exact .none

theorem rel_or {α β : Type} {R : α → β → Prop} {a a' : Option α} {b b' : Option β}
    (h : Option.Rel R a b) (h' : Option.Rel R a' b') : Option.Rel R (a.or a') (b.or b') := by
  cases h with
  | some hrel => exact .some hrel
  | none => exact h'

theorem exists_of_rel {α β : Type} {R : α → β → Prop} {a : Option α} {b : β}
    (h : Option.Rel R a (some b)) : ∃ x, a = some x ∧ R x b := by
  cases h with
  | some hrel => exact ⟨_, rfl, hrel⟩

/-- What is found first in lists of related elements. -/
theorem rel_findSome? {α β : Type} {S : α → β → Prop} {f : α → Option Ref} {g : β → Option Ref}
    (hfg : ∀ a b, S a b → Option.Rel R (f a) (g b)) {as : List α} {bs : List β}
    (h : List.Forall₂ S as bs) : Option.Rel R (as.findSome? f) (bs.findSome? g) := by
  induction h with
  | nil => exact .none
  | @cons a b as bs hab _ ih =>
      have hfirst := hfg a b hab
      rw [List.findSome?_cons, List.findSome?_cons]
      generalize f a = x at hfirst
      generalize g b = y at hfirst
      cases hfirst with
      | some hrel => exact .some hrel
      | none => exact ih

theorem Table.like_empty {α β : Type} (R : α → β → Prop) : Table.Like R .empty .empty :=
  fun _ => .none

theorem Table.Like.mono {t u : Table Ref} (h : t.Like R u) (hR : ∀ r n, R r n → R' r n) :
    t.Like R' u :=
  fun name => rel_imp (h name) hR

theorem Table.Like.insert {α β : Type} {R : α → β → Prop} {t : Table α} {u : Table β} {a : α}
    {b : β} (h : t.Like R u) (hab : R a b) (name : String) :
    (t.insert name a).Like R (u.insert name b) := by
  intro key
  rw [Table.find?_insert, Table.find?_insert]
  by_cases hkey : key = name
  · rw [if_pos hkey, if_pos hkey]
    exact .some hab
  · rw [if_neg hkey, if_neg hkey]
    exact h key

theorem Scope.like_empty (R : Ref → Ref → Prop) : Scope.Like R {} {} :=
  ⟨Table.like_empty R, Table.like_empty R⟩

namespace Scopes

theorem like_empty (R : Ref → Ref → Prop) : Like R {} {} :=
  ⟨.nil, Scope.like_empty R, Table.like_empty R⟩

theorem Like.mono (h : Like R s t) (hR : ∀ r n, R r n → R' r n) : Like R' s t where
  bodies := h.bodies.imp fun _ _ hscope => ⟨hscope.objects.mono hR, hscope.templates.mono hR⟩
  outermost := ⟨h.outermost.objects.mono hR, h.outermost.templates.mono hR⟩
  document := h.document.mono hR

theorem Like.open (h : Like R s t) : Like R s.open t.open where
  bodies := .cons (Scope.like_empty R) h.bodies
  outermost := h.outermost
  document := h.document

theorem Like.close (h : Like R s t) : Like R s.close t.close where
  bodies := by
    rcases s with ⟨bodies, outermost, document⟩
    rcases t with ⟨bodies', outermost', document'⟩
    rcases h with ⟨hbodies, -, -⟩
    cases hbodies with
    | nil => exact .nil
    | cons _ hrest => exact hrest
  outermost := h.outermost
  document := h.document

/-- A change of the innermost scopes that keeps them alike. -/
theorem Like.modify (h : Like R s t) {f g : Scope → Scope}
    (hfg : ∀ a b, Scope.Like R a b → Scope.Like R (f a) (g b)) :
    Like R (s.modify f) (t.modify g) := by
  rcases s with ⟨bodies, outermost, document⟩
  rcases t with ⟨bodies', outermost', document'⟩
  rcases h with ⟨hbodies, houtermost, hdocument⟩
  -- The innermost scope is that of a body, or outside of all of them the outermost.
  cases hbodies with
  | nil => exact ⟨.nil, hfg _ _ houtermost, hdocument⟩
  | cons hfirst hrest => exact ⟨.cons (hfg _ _ hfirst) hrest, houtermost, hdocument⟩

/-- Only one side needs the constants. -/
theorem Like.defineConstant (h : Like R s t) (name value : String) :
    Like R (s.defineConstant name value) t := by
  have hmodify := h.modify (g := id) (f := fun scope =>
    { scope with constants := scope.constants.insert name value }) fun _ _ hscope =>
      ⟨hscope.objects, hscope.templates⟩
  have hid : t.modify id = t := by
    rcases t with ⟨bodies, outermost, document⟩
    cases bodies <;> rfl
  rw [hid] at hmodify
  exact hmodify

theorem Like.define (h : Like R s t) (hr : R r n) (name : String) :
    Like R (s.define name r) (t.define name n) := by
  have hmodify := h.modify (f := fun scope =>
      { scope with objects := scope.objects.insert name r }) (g := fun scope =>
      { scope with objects := scope.objects.insert name n }) fun _ _ hscope =>
    ⟨hscope.objects.insert hr name, hscope.templates⟩
  exact ⟨hmodify.bodies, hmodify.outermost, h.document.insert hr name⟩

theorem Like.defineTemplate (h : Like R s t) (hr : R r n) (name : String) :
    Like R (s.defineTemplate name r) (t.defineTemplate name n) :=
  h.modify fun _ _ hscope => ⟨hscope.objects, hscope.templates.insert hr name⟩

theorem Like.all (h : Like R s t) : List.Forall₂ (Scope.Like R) s.all t.all :=
  List.rel_append h.bodies (.cons h.outermost .nil)

/-- A name leads to an object where it leads to the type of one. -/
theorem Like.resolve? (h : Like R s t) (name : String) :
    Option.Rel R (s.resolve? name) (t.resolve? name) :=
  rel_or
    (rel_findSome? (fun _ _ hscope => rel_or (hscope.objects name) (hscope.templates name)) h.all)
    (h.document name)

theorem Like.template? (h : Like R s t) (name : String) :
    Option.Rel R (s.template? name) (t.template? name) :=
  rel_or (rel_findSome? (fun _ _ hscope => hscope.templates name) h.all) (h.resolve? name)

end Scopes

end

namespace Heap

/-- An object of a registered type, which has this number. -/
def HasType (reg : Registry) (heap : Heap) (r n : Ref) : Prop :=
  r < heap.size ∧ ∃ spec, reg.find? (heap.get r).typeName = some spec ∧ reg.specs[n]? = some spec

/-- All objects are there later on, with the types and the names that they have. -/
structure KeepsHeads (heap heap' : Heap) : Prop where
  types : heap.KeepsTypes heap'
  names : ∀ r < heap.size, (heap'.get r).name = (heap.get r).name

variable {reg : Registry} {heap heap' heap'' : Heap} {r n : Ref}

theorem KeepsHeads.refl (heap : Heap) : heap.KeepsHeads heap :=
  ⟨.refl heap, fun _ _ => rfl⟩

theorem KeepsHeads.trans (h : heap.KeepsHeads heap') (h' : heap'.KeepsHeads heap'') :
    heap.KeepsHeads heap'' := by
  have hlt : ∀ r < heap.size, r < heap'.size := fun r hr => Nat.lt_of_lt_of_le hr h.types.1
  refine ⟨⟨Nat.le_trans h.types.1 h'.types.1, fun r hr => ?_⟩, fun r hr => ?_⟩
  · rw [h'.types.2 r (hlt r hr), h.types.2 r hr]
  · rw [h'.names r (hlt r hr), h.names r hr]

theorem HasType.keep (h : heap.HasType reg r n) (hkeep : heap.KeepsTypes heap') :
    heap'.HasType reg r n := by
  rcases h with ⟨hlt, spec, hspec, hn⟩
  refine ⟨Nat.lt_of_lt_of_le hlt hkeep.1, spec, ?_, hn⟩
  rw [hkeep.2 r hlt]
  exact hspec

/-- New objects behind the heap change none that is there. -/
theorem keepsHeads_of_same (hsize : heap.size ≤ heap'.size)
    (hsame : ∀ r < heap.size, heap'.get r = heap.get r) : heap.KeepsHeads heap' :=
  ⟨⟨hsize, fun r hr => by rw [hsame r hr]⟩, fun r hr => by rw [hsame r hr]⟩

theorem keepsHeads_alloc (heap : Heap) (i : Instance) : heap.KeepsHeads (heap.alloc i) := by
  refine keepsHeads_of_same ?_ fun r hr => ?_
  · rw [size_alloc]
    exact Nat.le_succ _
  · rw [get_alloc, if_neg (Nat.ne_of_lt hr)]

/-- A change of a new object changes none that was there. -/
theorem KeepsHeads.modify (h : heap.KeepsHeads heap') (hr : heap.size ≤ r)
    (f : Instance → Instance) : heap.KeepsHeads (heap'.modify r f) := by
  have hsame : ∀ x < heap.size, (heap'.modify r f).get x = heap'.get x := by
    intro x hx
    rw [get_modify, if_neg fun heq => absurd heq.1 (Nat.ne_of_lt (Nat.lt_of_lt_of_le hx hr))]
  refine ⟨⟨?_, fun x hx => ?_⟩, fun x hx => ?_⟩
  · rw [size_modify]
    exact h.types.1
  · rw [hsame x hx]
    exact h.types.2 x hx
  · rw [hsame x hx]
    exact h.names x hx

/-- A store changes neither the type nor the name of an object. -/
theorem keepsHeads_of_store {field : FieldSpec} {vs : List Value}
    (hstore : heap.store r field vs = .ok heap') : heap.KeepsHeads heap' := by
  refine ⟨keepsTypes_of_store hstore, fun x _ => ?_⟩
  rcases get_of_store hstore with ⟨-, j, hj, hget⟩
  rw [hget]
  split
  next hx =>
    rcases Instance.store_eq_ok hj with ⟨content, -, rfl⟩
    rw [hx.1]
  · rfl

theorem hasType_numberOf {spec : ObjectSpec} (hr : r < heap.size)
    (hspec : reg.find? (heap.get r).typeName = some spec) :
    heap.HasType reg r (reg.numberOf spec) :=
  ⟨hr, spec, hspec, List.getElem?_idxOf (Registry.mem_specs_of_find? hspec)⟩

end Heap

/-- Scopes stay alike when no object changes its type. -/
theorem Scopes.Like.keep {reg : Registry} {heap heap' : Heap} {scopes known : Scopes}
    (h : scopes.Like (heap.HasType reg) known) (hkeeps : heap.KeepsTypes heap') :
    scopes.Like (heap'.HasType reg) known :=
  h.mono fun _ _ hr => hr.keep hkeeps

/-- The object that a name refers to when the scopes of types know the name. -/
theorem exists_resolve {reg : Registry} {heap : Heap} {scopes known : Scopes} {name : String}
    {spec : ObjectSpec} (hnames : scopes.Like (heap.HasType reg) known)
    (htype : known.typeOf? reg name = some spec) :
    ∃ r, scopes.resolve? name = some r ∧ reg.find? (heap.get r).typeName = some spec := by
  rcases Option.bind_eq_some_iff.1 htype with ⟨n, hn, hspec⟩
  have hlike := hnames.resolve? name
  rw [hn] at hlike
  rcases exists_of_rel hlike with ⟨r, hr, -, spec', hfind, hspec'⟩
  rw [hspec, Option.some.injEq] at hspec'
  exact ⟨r, hr, hspec' ▸ hfind⟩

end GraphText

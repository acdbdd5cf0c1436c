import GraphText.Proofs.Reader.Written
import GraphText.Proofs.Writer.Legible
import GraphText.Proofs.Writer.Writable

/-!
# Graphs that come up again

While the text of a graph is read, the graph comes up again in another heap. A
plan says under which number and by which name every object comes up, and this
module says what it means that a part of it has: an object is there with all its
fields, some more objects are there and the others are as they were, and the
names of those that are done are known.

The numbers are planned because an object is there from its header on, but known
by name only behind its body, so in between there is nothing else that an object
of the graph could be recognized by.

## Main definitions

* `Plan`: a graph, and what its objects are to become.
* `Plan.Image`: an object that has come up.
* `Plan.Known`, `Plan.Scoped`: what is known of the objects that are done.
* `Plan.Grown`: what has come up from one heap to a later one.
* `Plan.Filled`: an object that has got some fields.
* `Plan.Passed`: what has come up behind some lines of a body.

## Theorems

* `Plan.Scoped.resolve`: names lead to the objects they should.
* `Plan.Grown.trans`, `Plan.Passed.append`: one thing after another.
* `Plan.exists_line`: the values of a field come up.
-/

namespace GraphText

open Writer

namespace Reader

/-- A graph, and the names and the numbers under which its objects are to come up. -/
structure Plan where
  heap : Heap
  names : Ref → Option String
  place : Ref → Ref

namespace Plan

variable (plan : Plan)

/-- The values of a field under the planned numbers. -/
def moved (vs : List Value) : List Value :=
  vs.map (Value.mapRefs plan.place)

/-- An object has come up, with all that is written of it. -/
structure Image (reg : Registry) (heap : Heap) (r : Ref) : Prop where
  typeName : (heap.get (plan.place r)).typeName = (plan.heap.get r).typeName
  name : (heap.get (plan.place r)).name = plan.names r
  fields : ∀ field ∈ reg.visibleOf (plan.heap.get r),
    (heap.get (plan.place r)).fetch? field = ((plan.heap.get r).fetch? field).map plan.moved

/-- These objects are there, with their types. -/
def Known (heap : Heap) (done : List Ref) : Prop :=
  ∀ r ∈ done, plan.place r < heap.size ∧
    (heap.get (plan.place r)).typeName = (plan.heap.get r).typeName

/-- Names lead to planned numbers only, and the names of these objects lead somewhere. -/
structure Scoped (scopes : Scopes) (done : List Ref) : Prop where
  named : ∀ name x, scopes.Names name x → ∃ r, plan.names r = some name ∧ x = plan.place r
  listed : ∀ r ∈ done, ∀ name, plan.names r = some name →
    (scopes.document.find? name).isSome = true

/-- From one heap to a later one these objects have come up, and all others but the touched ones are
    as they were. -/
structure Grown (reg : Registry) (touched : List Ref) (heap heap' : Heap) (new : List Ref) :
    Prop where
  size : heap'.size = heap.size + new.length
  keeps : heap.KeepsTypes heap'
  same : ∀ x < heap.size, x ∉ touched → heap'.get x = heap.get x
  images : ∀ r ∈ new, heap.size ≤ plan.place r ∧ plan.place r < heap'.size ∧
    plan.Image reg heap' r

/-- An object has got these fields, and is else as it was. -/
structure Filled (fields : List (FieldSpec × List Value)) (i j : Instance) : Prop where
  typeName : j.typeName = i.typeName
  name : j.name = i.name
  fetch : ∀ line ∈ fields, j.fetch? line.1 = some (plan.moved line.2)
  other : ∀ name, (∀ line ∈ fields, line.1.name ≠ name) → j.slots.find? name = i.slots.find? name

/-- Behind the lines of some fields, what is in them has come up and the object has the fields. -/
structure Passed (reg : Registry) (done : List Ref) (object : Ref) (heap heap' : Heap)
    (scopes' : Scopes) (new : List Ref) (fields : List (FieldSpec × List Value)) : Prop where
  grown : plan.Grown reg [object] heap heap' new
  names : plan.Scoped scopes' (done ++ new)
  filled : plan.Filled fields (heap.get object) (heap'.get object)

variable {plan} {reg : Registry} {heap heap' heap'' : Heap} {scopes : Scopes}
  {done new more touched : List Ref} {r o : Ref}

theorem Known.grow (h : plan.Known heap done) (hgrown : plan.Grown reg touched heap heap' new) :
    plan.Known heap' (done ++ new) := by
  intro r hr
  rcases List.mem_append.1 hr with hr | hr
  · rcases h r hr with ⟨hlt, htype⟩
    exact ⟨Nat.lt_of_lt_of_le hlt hgrown.keeps.1, (hgrown.keeps.2 _ hlt).trans htype⟩
  · rcases hgrown.images r hr with ⟨-, hlt, himage⟩
    exact ⟨hlt, himage.typeName⟩

/-- Nothing has come up. -/
theorem Grown.refl (plan : Plan) (reg : Registry) (touched : List Ref) (heap : Heap) :
    plan.Grown reg touched heap heap [] where
  size := rfl
  keeps := .refl heap
  same := fun _ _ _ => rfl
  images := fun _ hr => nomatch hr

theorem Grown.touch (h : plan.Grown reg [] heap heap' new) (touched : List Ref) :
    plan.Grown reg touched heap heap' new :=
  { h with same := fun x hx _ => h.same x hx (fun hmem => nomatch hmem) }

/-- What comes up later does not change what came up before. -/
theorem Grown.trans (h : plan.Grown reg touched heap heap' new)
    (h' : plan.Grown reg touched heap' heap'' more) (ht : ∀ x ∈ touched, x < heap.size) :
    plan.Grown reg touched heap heap'' (new ++ more) where
  size := by
    rw [h'.size, h.size, List.length_append]
    omega
  keeps := by
    refine ⟨Nat.le_trans h.keeps.1 h'.keeps.1, fun x hx => ?_⟩
    rw [h'.keeps.2 x (Nat.lt_of_lt_of_le hx h.keeps.1), h.keeps.2 x hx]
  same := by
    intro x hx htouched
    rw [h'.same x (Nat.lt_of_lt_of_le hx h.keeps.1) htouched, h.same x hx htouched]
  images := by
    intro r hr
    rcases List.mem_append.1 hr with hr | hr
    · rcases h.images r hr with ⟨hle, hlt, himage⟩
      -- A new object is none of those that are touched.
      have htouched : plan.place r ∉ touched := fun hmem =>
        absurd (ht _ hmem) (Nat.not_lt_of_le hle)
      have hsame := h'.same _ hlt htouched
      refine ⟨hle, Nat.lt_of_lt_of_le hlt h'.keeps.1, ⟨?_, ?_, fun field hfield => ?_⟩⟩
      · rw [hsame]
        exact himage.typeName
      · rw [hsame]
        exact himage.name
      · rw [hsame]
        exact himage.fields field hfield
    · rcases h'.images r hr with ⟨hle, hlt, himage⟩
      exact ⟨Nat.le_trans h.keeps.1 hle, hlt, himage⟩

theorem Scoped.open (h : plan.Scoped scopes done) : plan.Scoped scopes.open done :=
  ⟨fun name x hx => h.named name x (Scopes.names_of_open hx), h.listed⟩

theorem Scoped.close (h : plan.Scoped scopes done) : plan.Scoped scopes.close done :=
  ⟨fun name x hx => h.named name x (Scopes.names_of_close hx), h.listed⟩

theorem Scoped.mono (h : plan.Scoped scopes done) (hsub : more ⊆ done) : plan.Scoped scopes more :=
  ⟨h.named, fun r hr => h.listed r (hsub hr)⟩

/-- An object becomes known by its name. -/
theorem Scoped.declare (h : plan.Scoped scopes done) (r : Ref) :
    plan.Scoped (scopes.declare (plan.names r) (plan.place r)) (done ++ [r]) := by
  cases hname : plan.names r with
  | none =>
      -- Nothing is declared, and the object has no name to be known by.
      refine ⟨h.named, fun x hx name hnamed => ?_⟩
      rcases List.mem_append.1 hx with hx | hx
      · exact h.listed x hx name hnamed
      · rw [List.mem_singleton.1 hx, hname] at hnamed
        cases hnamed
  | some name =>
      refine ⟨fun name' x hx => ?_, fun x hx name' hnamed => ?_⟩
      · rcases Scopes.names_of_define hx with hold | ⟨rfl, rfl⟩
        · exact h.named name' x hold
        · exact ⟨r, hname, rfl⟩
      -- The document lists the latest object of a name, and every object is listed there.
      · have hfind : ((scopes.declare (some name) (plan.place r)).document.find? name') =
            if name' = name then some (plan.place r) else scopes.document.find? name' :=
          Table.find?_insert ..
        rw [hfind]
        split
        · rfl
        next hne =>
          rcases List.mem_append.1 hx with hx | hx
          · exact h.listed x hx name' hnamed
          · rw [List.mem_singleton.1 hx, hname, Option.some.injEq] at hnamed
            exact absurd hnamed.symm hne

/-- A name that only one object has leads to it. -/
theorem Scoped.resolve (h : plan.Scoped scopes done) (hr : r ∈ done) {name : String}
    (hname : plan.names r = some name) (honly : ∀ x, plan.names x = some name → x = r) :
    scopes.resolve? name = some (plan.place r) := by
  -- The document lists the name, and an inner scope can only hide it behind one that has it too.
  have hsome : (scopes.resolve? name).isSome = true := by
    unfold Scopes.resolve?
    rw [Option.isSome_or, h.listed r hr name hname, Bool.or_true]
  rcases Option.isSome_iff_exists.1 hsome with ⟨x, hx⟩
  rcases h.named name x (Scopes.names_of_resolve? hx) with ⟨r', hname', rfl⟩
  rw [hx, honly r' hname']

theorem Filled.nil (plan : Plan) (i : Instance) : plan.Filled [] i i :=
  ⟨rfl, rfl, fun _ hline => (nomatch hline), fun _ _ => rfl⟩

theorem Filled.append {fields others : List (FieldSpec × List Value)} {i j k : Instance}
    (h : plan.Filled fields i j) (h' : plan.Filled others j k)
    (hnew : ∀ line ∈ fields, ∀ line' ∈ others, line'.1.name ≠ line.1.name) :
    plan.Filled (fields ++ others) i k where
  typeName := h'.typeName.trans h.typeName
  name := h'.name.trans h.name
  fetch := by
    intro line hline
    -- The later lines leave alone what the earlier ones have set.
    rcases List.mem_append.1 hline with hline | hline
    · have hsame := h'.other line.1.name (hnew line hline)
      rw [← h.fetch line hline, Instance.fetch?, Instance.fetch?, hsame]
    · exact h'.fetch line hline
  other := by
    intro name hname
    rw [h'.other name fun line hline => hname line (List.mem_append_right _ hline),
      h.other name fun line hline => hname line (List.mem_append_left _ hline)]

/-- Some lines, then others. -/
theorem Passed.append {fields others : List (FieldSpec × List Value)} {scopes scopes' : Scopes}
    (h : plan.Passed reg done o heap heap' scopes new fields)
    (h' : plan.Passed reg (done ++ new) o heap' heap'' scopes' more others) (ho : o < heap.size)
    (hnew : ∀ line ∈ fields, ∀ line' ∈ others, line'.1.name ≠ line.1.name) :
    plan.Passed reg done o heap heap'' scopes' (new ++ more) (fields ++ others) where
  grown := h.grown.trans h'.grown fun _ hx => List.mem_singleton.1 hx ▸ ho
  names := List.append_assoc .. ▸ h'.names
  filled := h.filled.append h'.filled hnew

/-- Values come up in the field that they are stored in. -/
theorem exists_store {field : FieldSpec} {vs : List Value} (plan : Plan)
    (hgiven : Given reg plan.heap field vs) (ho : o < heap.size) :
    ∃ heap', heap.store o field (plan.moved vs) = .ok heap' ∧
      plan.Grown reg [o] heap heap' [] ∧
      plan.Filled [(field, vs)] (heap.get o) (heap'.get o) := by
  rcases hgiven.keeps with ⟨content, hkeeps⟩
  have hmoved : field.kind.Keeps field.name (content.mapRefs plan.place) (plan.moved vs) :=
    hkeeps.mapRefs
  have hstored : (heap.get o).store field (plan.moved vs) =
      .ok { heap.get o with
        slots := (heap.get o).slots.insert field.name (content.mapRefs plan.place) } := by
    unfold Instance.store
    rw [hmoved.store]
    rfl
  -- A store fails only if the values do not fit, and these do.
  rcases hheap : heap.store o field (plan.moved vs) with e | heap'
  · rw [Heap.store, hstored] at hheap
    cases hheap
  · have hkeep := Heap.keepsTypes_of_store hheap
    rcases Heap.get_of_store hheap with ⟨hsize, j, hj, hget⟩
    rw [hstored, Except.ok.injEq] at hj
    have hobject := hget o
    rw [if_pos ⟨rfl, ho⟩, ← hj] at hobject
    refine ⟨heap', rfl, ⟨hsize, hkeep, fun x _ hx => ?_, fun r hr => nomatch hr⟩, ?_⟩
    · rw [hget x, if_neg fun heq => hx (List.mem_singleton.2 heq.1)]
    · rw [hobject]
      refine ⟨rfl, rfl, fun line hline => ?_, fun name hname => ?_⟩
      · rw [List.mem_singleton.1 hline, Instance.fetch?, Table.find?_insert, if_pos rfl]
        exact hmoved.fetch
      · have hne : name ≠ field.name := (hname _ (List.mem_singleton_self _)).symm
        rw [Table.find?_insert, if_neg hne]

/-- The values of a field come up in the innermost body, behind what they hold. -/
theorem exists_line {field : FieldSpec} {vs : List Value} {body : Body} {outer : List Body}
    (mode : Mode) (hgiven : Given reg plan.heap field vs) (ho : body.object < heap.size)
    (hgrown : plan.Grown reg [] heap heap' new) (hscoped : plan.Scoped scopes (done ++ new))
    (start : Position) :
    ∃ heap'', storeField heap' ⟨scopes, body :: outer, mode⟩ field start (plan.moved vs) =
        .ok (heap'', ⟨scopes, { body with seenField := true } :: outer, .itemEnd⟩) ∧
      plan.Passed reg done body.object heap heap'' scopes new [(field, vs)] := by
  have ho' : body.object < heap'.size := Nat.lt_of_lt_of_le ho hgrown.keeps.1
  rcases exists_store plan hgiven ho' with ⟨heap'', hstore, hstored, hfilled⟩
  refine ⟨heap'', storeField_of_store rfl hstore, ?_, hscoped, ?_⟩
  · have htouched := (hgrown.touch [body.object]).trans hstored fun _ hx =>
      List.mem_singleton.1 hx ▸ ho
    rw [List.append_nil] at htouched
    exact htouched
  · rw [← hgrown.same body.object ho fun hmem => nomatch hmem]
    exact hfilled

/-- An object that has come up may stand where the graph has it. -/
theorem checkObject_of_known {field : FieldSpec} (hmeets : plan.heap.Meets reg field r)
    (htype : (heap.get (plan.place r)).typeName = (plan.heap.get r).typeName) (p : Position) :
    checkObject reg heap field (plan.place r) p = .ok () := by
  unfold checkObject
  cases hrequired : field.kind.required with
  | none => rfl
  | some required =>
      simp only [htype, hmeets.2 required hrequired, if_true]

end Plan

end Reader

end GraphText

import GraphText.Proofs.Heap.Copied
import GraphText.Proofs.Heap.Fields
import GraphText.Proofs.Registry.Valid
import GraphText.Proofs.Token.Words

/-!
# Objects of their types

An object that was read from a text has the fields of its type and in them what
such fields take. What is said here of an object that is referred to is said of
its type only, and the type of an object never changes, so all of it carries
over to a later heap as soon as that keeps the types.

A copy has the type of its source and in each field what the source has there,
under other numbers, so copies are of their types as well.

## Main definitions

* `FieldSpec.IsSpelled`, `ObjectSpec.IsSpelled`: what can be named in a text.
* `Heap.Meets`: an object that a field may refer to.
* `Instance.Typed`: an object of its type.
* `Heap.KeepsTypes`: a later heap.

## Theorems

* `Instance.Typed.store`: a store of what fits.
* `Instance.Typed.of_fetch`: what is fetched from an object of its type.
* `Heap.stored_of_copyOf`: what a copy keeps.
* `Heap.typed_of_copy`: copies are of their types.
-/

namespace GraphText

/-- Whether a text can name the field. -/
def FieldSpec.IsSpelled (field : FieldSpec) : Prop :=
  Lexeme.IsWord field.name ∧ field.name ≠ "CONSTANTS" ∧ field.name ≠ "TEMPLATES"

/-- Whether a text can name the type. -/
def ObjectSpec.IsSpelled (spec : ObjectSpec) : Prop :=
  Lexeme.IsWord spec.typeName ∧ spec.typeName ≠ "CLONE" ∧ spec.typeName ≠ "USE"

/-- An object that a field may refer to. -/
def Heap.Meets (reg : Registry) (heap : Heap) (field : FieldSpec) (r : Ref) : Prop :=
  r < heap.size ∧ ∀ required, field.kind.required = some required →
    reg.isDerivedFrom (heap.get r).typeName required = true

/-- What an object may keep under a name: the content of a field of its type. -/
structure Instance.Stored (reg : Registry) (heap : Heap) (typeName name : String)
    (content : Content) (field : FieldSpec) (vs : List Value) : Prop where
  found : ∃ spec, reg.find? typeName = some spec ∧ spec.find? name = some field
  spelled : field.IsSpelled
  fits : field.kind.Fits vs
  store : field.kind.store? name vs = .ok content
  meets : ∀ r ∈ vs.flatMap Value.refs, heap.Meets reg field r

/-- An object of its type, as it is read from a text. -/
structure Instance.Typed (reg : Registry) (heap : Heap) (i : Instance) : Prop where
  concrete : ∃ spec, reg.find? i.typeName = some spec ∧ spec.IsSpelled ∧ spec.isAbstract = false
  name : i.name ≠ some ""
  slots : ∀ name content, i.slots.find? name = some content →
    ∃ field vs, Instance.Stored reg heap i.typeName name content field vs

/-- All objects are there later on, with the types that they have. -/
def Heap.KeepsTypes (heap heap' : Heap) : Prop :=
  heap.size ≤ heap'.size ∧ ∀ r < heap.size, (heap'.get r).typeName = (heap.get r).typeName

theorem Heap.KeepsTypes.refl (heap : Heap) : heap.KeepsTypes heap :=
  ⟨Nat.le_refl _, fun _ _ => rfl⟩

theorem Heap.KeepsTypes.trans {a b c : Heap} (hab : a.KeepsTypes b) (hbc : b.KeepsTypes c) :
    a.KeepsTypes c :=
  ⟨Nat.le_trans hab.1 hbc.1, fun r hr =>
    (hbc.2 r (Nat.lt_of_lt_of_le hr hab.1)).trans (hab.2 r hr)⟩

/-- Naming an object keeps all types. -/
theorem Heap.keepsTypes_of_withName (heap : Heap) (r : Ref) (name : String) :
    heap.KeepsTypes (heap.modify r (·.withName name)) := by
  refine ⟨Nat.le_of_eq (heap.size_modify _ _).symm, fun x _ => ?_⟩
  rw [heap.get_modify]
  split <;> rfl

section

variable {reg : Registry} {heap heap' : Heap} {field : FieldSpec} {i : Instance} {r : Ref}

theorem Heap.Meets.keep (h : heap.Meets reg field r) (hkeep : heap.KeepsTypes heap') :
    heap'.Meets reg field r := by
  refine ⟨Nat.lt_of_lt_of_le h.1 hkeep.1, ?_⟩
  rw [hkeep.2 r h.1]
  exact h.2

theorem Instance.Typed.keep (h : i.Typed reg heap) (hkeep : heap.KeepsTypes heap') :
    i.Typed reg heap' where
  concrete := h.concrete
  name := h.name
  slots := by
    intro name content hfind
    rcases h.slots name content hfind with ⟨field, vs, hstored⟩
    exact ⟨field, vs, hstored.found, hstored.spelled, hstored.fits, hstored.store,
      fun r hr => (hstored.meets r hr).keep hkeep⟩

theorem Instance.name_withName (i : Instance) (name : String) :
    (i.withName name).name ≠ some "" := by
  unfold withName
  by_cases hname : name = ""
  · simp [hname]
  · simp [hname]

/-- A store keeps all types. -/
theorem Heap.keepsTypes_of_store {vs : List Value} (hstore : heap.store r field vs = .ok heap') :
    heap.KeepsTypes heap' := by
  rcases Heap.get_of_store hstore with ⟨hsize, j, hj, hget⟩
  refine ⟨Nat.le_of_eq hsize.symm, fun x _ => ?_⟩
  rw [hget]
  split
  next hx =>
    rcases Instance.store_eq_ok hj with ⟨content, -, rfl⟩
    rw [hx.1]
  · rfl

/-- A store of what fits makes an object of its type. -/
theorem Instance.Typed.store {spec : ObjectSpec} {j : Instance} {vs : List Value}
    (h : i.Typed reg heap) (hspec : reg.find? i.typeName = some spec)
    (hfield : spec.find? field.name = some field) (hspelled : field.IsSpelled)
    (hfits : field.kind.Fits vs) (hmeets : ∀ r ∈ vs.flatMap Value.refs, heap.Meets reg field r)
    (hstore : i.store field vs = .ok j) : j.Typed reg heap := by
  rcases Instance.store_eq_ok hstore with ⟨content, hcontent, rfl⟩
  refine ⟨h.concrete, h.name, fun name kept hfind => ?_⟩
  rw [Table.find?_insert] at hfind
  split at hfind
  next hname =>
    cases hfind
    rw [hname]
    exact ⟨field, vs, ⟨spec, hspec, hfield⟩, hspelled, hfits, hcontent, hmeets⟩
  · exact h.slots name kept hfind

end

/-- What a copy keeps under a name is made from what the source has in a field of this name. -/
theorem Heap.stored_of_copyOf {spec : ObjectSpec} {i j : Instance} {move : Ref → Ref}
    (h : copyOf spec i move = .ok j) {name : String} {content : Content}
    (hfind : j.slots.find? name = some content) :
    ∃ field ∈ spec.fields, field.name = name ∧ ∃ vs, i.fetch? field = some vs ∧
      field.kind.store? name (vs.map (Value.mapRefs move)) = .ok content := by
  -- A copy is made field by field, and what one field is given the others leave alone.
  have hall : ∀ name content, j.slots.find? name = some content →
      ∃ field ∈ spec.fields, field.name = name ∧ ∃ vs, i.fetch? field = some vs ∧
        field.kind.store? name (vs.map (Value.mapRefs move)) = .ok content := by
    refine foldlM_preserves (P := fun j => ∀ name content, j.slots.find? name = some content →
      ∃ field ∈ spec.fields, field.name = name ∧ ∃ vs, i.fetch? field = some vs ∧
        field.kind.store? name (vs.map (Value.mapRefs move)) = .ok content) h ?_ ?_
    · intro name content hfind
      have hnone : (none : Option Content) = some content := hfind
      cases hnone
    · intro field hfield c c' hstep hc name content hfind
      cases hvs : i.fetch? field with
      | none =>
          simp only [hvs, Except.ok.injEq] at hstep
          exact hc name content (hstep ▸ hfind)
      | some vs =>
          simp only [hvs] at hstep
          rcases Instance.store_eq_ok hstep with ⟨kept, hkept, rfl⟩
          rw [Table.find?_insert] at hfind
          split at hfind
          next hname =>
            cases hfind
            exact ⟨field, hfield, hname.symm, vs, hvs, hname ▸ hkept⟩
          · exact hc name content hfind
  exact hall name content hfind

theorem Heap.keepsTypes_of_copy {reg : Registry} {h h' : Heap} {root copy : Ref}
    (hcopy : h.copy reg root true = .ok (h', copy)) : h.KeepsTypes h' := by
  rcases copy_eq_ok hcopy with ⟨-, hlt, hdeep⟩
  refine ⟨Nat.le_of_lt hlt, fun x hx => ?_⟩
  rw [(deepCopy_eq_ok rfl hdeep).2.1 x hx]

/-- The copy of an object has its type. -/
theorem Heap.typeName_of_copy {reg : Registry} {h h' : Heap} {root copy : Ref}
    (hcopy : h.copy reg root true = .ok (h', copy)) :
    (h'.get copy).typeName = (h.get root).typeName := by
  rcases copy_eq_ok hcopy with ⟨rfl, -, hdeep⟩
  rcases preorder_eq_cons h reg.fieldsOf root with ⟨rest, hrest⟩
  rcases (deepCopy_eq_ok hrest hdeep).2.2 0 (Nat.succ_pos _) with ⟨spec, hspec, hcopied⟩
  have hsame := (copyOf_eq_ok hcopied).typeName
  rw [Nat.add_zero] at hsame
  rw [hsame, Registry.typeName_of_find? hspec]
  rfl

/-- What is fetched from an object of its type fits the field. -/
theorem Instance.Typed.of_fetch {reg : Registry} (hvalid : reg.IsValid) {heap : Heap}
    {spec : ObjectSpec} {i : Instance} {field : FieldSpec} {vs : List Value}
    (h : i.Typed reg heap) (hspec : reg.find? i.typeName = some spec) (hfield : field ∈ spec.fields)
    (hvs : i.fetch? field = some vs) :
    field.IsSpelled ∧ field.kind.Fits vs ∧ ∀ r ∈ vs.flatMap Value.refs, heap.Meets reg field r := by
  rcases Option.bind_eq_some_iff.1 hvs with ⟨kept, hkept, hfetch⟩
  rcases h.slots field.name kept hkept with ⟨field', given, hstored⟩
  rcases hstored.found with ⟨spec', hspec', hfield'⟩
  -- The field that was stored into is the one that is fetched.
  rw [hspec, Option.some.injEq] at hspec'
  rw [← hspec', hvalid.find?_of_mem hspec hfield, Option.some.injEq] at hfield'
  rw [← hfield'] at hstored
  rcases FieldKind.fetch_of_store hstored.fits hstored.store with
    ⟨fetched, hfetched, hfits, hrefs, -⟩
  rw [hfetch, Option.some.injEq] at hfetched
  rw [← hfetched] at hfits hrefs
  exact ⟨hstored.spelled, hfits, fun r hr => hstored.meets r (hrefs ▸ hr)⟩

/-- A copy of an object of its type is one too, if what it refers to has gone to objects of the same
    types. -/
theorem Instance.Typed.copyOf {reg : Registry} (hvalid : reg.IsValid) {heap heap' : Heap}
    {spec : ObjectSpec} {i j : Instance} {move : Ref → Ref} (h : i.Typed reg heap)
    (hspec : reg.find? i.typeName = some spec) (hcopied : Heap.copyOf spec i move = .ok j)
    (hmove : ∀ field ∈ spec.fields, ∀ vs, i.fetch? field = some vs →
      ∀ x ∈ vs.flatMap Value.refs,
        move x < heap'.size ∧ (heap'.get (move x)).typeName = (heap.get x).typeName) :
    j.Typed reg heap' := by
  have hiscopy := Heap.copyOf_eq_ok hcopied
  have htypeName : j.typeName = i.typeName := by
    rw [hiscopy.typeName, Registry.typeName_of_find? hspec]
  refine ⟨htypeName ▸ h.concrete, hiscopy.name ▸ h.name, fun name content hfind => ?_⟩
  rcases Heap.stored_of_copyOf hcopied hfind with ⟨field, hfield, rfl, vs, hvs, hstore⟩
  rcases h.of_fetch hvalid hspec hfield hvs with ⟨hspelled, hfits, hmeets⟩
  refine ⟨field, vs.map (Value.mapRefs move), ⟨⟨spec, htypeName ▸ hspec,
    hvalid.find?_of_mem hspec hfield⟩, hspelled, hfits.mapRefs, hstore, ?_⟩⟩
  -- What the copy refers to is what the source refers to, moved, and has its type.
  intro r hr
  rw [List.flatMap_map] at hr
  rcases List.mem_flatMap.1 hr with ⟨v, hv, hr⟩
  rw [Value.refs_mapRefs] at hr
  rcases List.mem_map.1 hr with ⟨x, hx, rfl⟩
  have hx : x ∈ vs.flatMap Value.refs := List.mem_flatMap.2 ⟨v, hv, hx⟩
  rcases hmove field hfield vs hvs x hx with ⟨hlt, hsame⟩
  refine ⟨hlt, ?_⟩
  rw [hsame]
  exact (hmeets x hx).2

/-- Copies of objects of their types are objects of their types. -/
theorem Heap.typed_of_copy {reg : Registry} (hvalid : reg.IsValid) {h h' : Heap} {root copy : Ref}
    (hcopy : h.copy reg root true = .ok (h', copy))
    (hsource : ∀ x, h.Reaches reg.fieldsOf root x → (h.get x).Typed reg h) :
    ∀ x, h.size ≤ x → x < h'.size → (h'.get x).Typed reg h' := by
  rcases copy_eq_ok hcopy with ⟨-, -, hdeep⟩
  rcases deepCopy_eq_ok rfl hdeep with ⟨hsize, -, hnew⟩
  generalize horder : h.preorder reg.fieldsOf [root] = order at hsize hnew
  have hreach : ∀ x ∈ order, h.Reaches reg.fieldsOf root x := by
    intro x hx
    rw [← horder, mem_preorder_iff] at hx
    simpa using hx
  -- A copy has the type of its source.
  have hsame : ∀ y ∈ order, h.size + order.idxOf y < h'.size ∧
      (h'.get (h.size + order.idxOf y)).typeName = (h.get y).typeName := by
    intro y hy
    have hidx : order.idxOf y < order.length := List.idxOf_lt_length_of_mem hy
    rcases hnew (order.idxOf y) hidx with ⟨spec, hspec, hcopied⟩
    rw [List.getElem_idxOf hidx] at hspec
    refine ⟨by lia, ?_⟩
    rw [(copyOf_eq_ok hcopied).typeName, Registry.typeName_of_find? hspec]
  intro x hle hlt
  have hi : x - h.size < order.length := by lia
  rcases hnew (x - h.size) hi with ⟨spec, hspec, hcopied⟩
  rw [Nat.add_sub_cancel' hle] at hcopied
  have hmem : order[x - h.size] ∈ order := List.getElem_mem hi
  have htyped := hsource _ (hreach _ hmem)
  refine htyped.copyOf hvalid hspec hcopied fun field hfield vs hvs y hy => hsame y ?_
  -- What the source refers to was copied as well.
  have hlink : h.Linked reg.fieldsOf order[x - h.size] y :=
    linked_of_fetch hspec hfield (by rw [hvs]; exact hy)
  rw [← horder]
  exact mem_preorder_of_linked (horder ▸ hmem) hlink

end GraphText

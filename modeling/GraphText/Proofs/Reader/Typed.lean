import GraphText.Proofs.Heap.Typed
import GraphText.Proofs.Reader.References

/-!
# Reading objects of their types

The reader makes sure of the type of an object bit by bit: the name of the type
is looked up, then the name of a field, then the values come one by one, and
what has been made sure of so far is in the mode. So there is an invariant of
the modes, and that of the objects follows from it at each store.

A name that was read has the spelling of a name, and this is kept too, for what
was read is to be written and read again.

## Main definitions

* `FieldOf`, `Target.Fits`, `Mode.Fits`, `Context.Fits`: what has been made sure of.
* `Typed`: the invariant.

## Theorems

* `deliver_typed`, `storeField_typed`: objects and values come to their places.
* `Move.typed`, `step_typed`: the invariant is kept.
* `typed_of_read`: all objects that were read are of their types.
-/

namespace GraphText

namespace Reader

/-- A field of the innermost of these bodies. -/
def FieldOf (bodies : List Body) (field : FieldSpec) : Prop :=
  field.IsSpelled ∧ ∀ body ∈ bodies.head?, body.spec.find? field.name = some field

/-- A target that an object may be brought to, if it is one for the target. -/
def Target.Fits (reg : Registry) (heap : Heap) (bodies : List Body) : Target → Prop
  | .root | .template => True
  | .field f _ => FieldOf bodies f ∧ f.kind.valueType = .object
  | .element f _ _ before =>
    FieldOf bodies f ∧ f.kind.valueType = .objectList ∧ ∀ r ∈ before, heap.Meets reg f r

/-- What has been made sure of in a mode. -/
def Mode.Fits (reg : Registry) (heap : Heap) (bodies : List Body) : Mode → Prop
  | .typed spec _ target | .named spec _ _ target =>
    (reg.find? spec.typeName = some spec ∧ spec.IsSpelled) ∧ target.Fits reg heap bodies
  | .fieldColon f | .fieldValue f => FieldOf bodies f
  | .scalar f type _ more before =>
    FieldOf bodies f ∧ f.kind.valueType = .scalar type ∧ f.kind.isList = false ∧
      (∀ v ∈ before, v.type = .scalar type) ∧ before.length + more + 1 = f.kind.arity
  | .listItem f type _ before | .listEnd f type _ before =>
    FieldOf bodies f ∧ f.kind.valueType = .scalar type ∧ f.kind.isList = true ∧
      ∀ v ∈ before, v.type = .scalar type
  | .element f _ before | .elementEnd f _ before =>
    FieldOf bodies f ∧ f.kind.valueType = .objectList ∧ ∀ r ∈ before, heap.Meets reg f r
  | mode => ∀ target ∈ mode.target?, target.Fits reg heap bodies

/-- The bodies have the types of their objects, and each has a target in the one around it. -/
def BodiesFit (reg : Registry) (heap : Heap) : List Body → Prop
  | [] => True
  | body :: rest =>
    body.object < heap.size ∧ reg.find? (heap.get body.object).typeName = some body.spec ∧
      body.target.Fits reg heap rest ∧ BodiesFit reg heap rest

/-- What has been made sure of in a context. -/
structure Context.Fits (reg : Registry) (heap : Heap) (c : Context) : Prop where
  bodies : BodiesFit reg heap c.bodies
  mode : c.mode.Fits reg heap c.bodies

/-- The objects of this reading, from `base` on, are of their types, and so are those that the
    contexts speak of. -/
structure Typed (reg : Registry) (base : Nat) (heap : Heap) (cs : List Context) : Prop where
  objects : ∀ r, base ≤ r → r < heap.size → (heap.get r).Typed reg heap
  contexts : ∀ c ∈ cs, c.Fits reg heap

section

variable {reg : Registry} {heap heap' : Heap} {bodies : List Body} {target : Target} {mode : Mode}
  {c c' : Context} {cs : List Context} {base : Nat} {token : Token} {source : Path}
  {field : FieldSpec} {start : Position} {r : Ref} {vs : List Value}

theorem Target.Fits.keep (h : target.Fits reg heap bodies) (hkeep : heap.KeepsTypes heap') :
    target.Fits reg heap' bodies := by
  cases target with
  | root | template => trivial
  | field field start => exact h
  | element field start first before =>
      exact ⟨h.1, h.2.1, fun r hr => (h.2.2 r hr).keep hkeep⟩

theorem Mode.Fits.keep (h : mode.Fits reg heap bodies) (hkeep : heap.KeepsTypes heap') :
    mode.Fits reg heap' bodies := by
  cases mode with
  | typed | named => exact ⟨h.1, h.2.keep hkeep⟩
  | fieldColon | fieldValue | scalar | listItem | listEnd => exact h
  | element | elementEnd => exact ⟨h.1, h.2.1, fun r hr => (h.2.2 r hr).keep hkeep⟩
  | _ => exact fun target htarget => (h target htarget).keep hkeep

theorem BodiesFit.keep (h : BodiesFit reg heap bodies) (hkeep : heap.KeepsTypes heap') :
    BodiesFit reg heap' bodies := by
  induction bodies with
  | nil => trivial
  | cons body rest ih =>
      rcases h with ⟨hlt, hspec, htarget, hrest⟩
      refine ⟨Nat.lt_of_lt_of_le hlt hkeep.1, ?_, htarget.keep hkeep, ih hrest⟩
      rw [hkeep.2 _ hlt]
      exact hspec

theorem Context.Fits.keep (h : c.Fits reg heap) (hkeep : heap.KeepsTypes heap') :
    c.Fits reg heap' :=
  ⟨h.bodies.keep hkeep, h.mode.keep hkeep⟩

/-- The first context may change, and so may the heap if it keeps the types. -/
theorem Typed.swap (h : Typed reg base heap (c :: cs)) (hkeep : heap.KeepsTypes heap')
    (hobjects : ∀ r, base ≤ r → r < heap'.size → (heap'.get r).Typed reg heap')
    (hc' : c'.Fits reg heap') : Typed reg base heap' (c' :: cs) := by
  refine ⟨hobjects, fun d hd => ?_⟩
  rcases List.mem_cons.1 hd with rfl | hd
  · exact hc'
  · exact (h.contexts d (List.mem_cons_of_mem _ hd)).keep hkeep

/-- The same heap, and another mode of the first context. -/
theorem Typed.enter (h : Typed reg base heap (c :: cs)) (hbodies : c'.bodies = c.bodies)
    (hmode : c'.mode.Fits reg heap c.bodies) : Typed reg base heap (c' :: cs) := by
  refine h.swap (.refl heap) h.objects ⟨?_, ?_⟩
  · rw [hbodies]
    exact (h.contexts c List.mem_cons_self).bodies
  · rw [hbodies]
    exact hmode

/-- One more scalar of the same type. -/
theorem types_append {type : ScalarType} {v : Value} (hvs : ∀ u ∈ vs, u.type = .scalar type)
    (hv : readScalar type token = .ok v) : ∀ u ∈ vs ++ [v], u.type = .scalar type := by
  intro u hu
  rcases List.mem_append.1 hu with hu | hu
  · exact hvs u hu
  · rw [List.mem_singleton.1 hu]
    exact type_of_readScalar hv

theorem bodies_afterField (c : Context) :
    c.afterField.bodies = match c.bodies with
      | [] => []
      | body :: rest => { body with seenField := true } :: rest := rfl

theorem fits_afterField (h : BodiesFit reg heap c.bodies) : c.afterField.Fits reg heap := by
  refine ⟨?_, fun target htarget => nomatch htarget⟩
  rw [bodies_afterField]
  cases hbodies : c.bodies with
  | nil => trivial
  | cons body rest =>
      rw [hbodies] at h
      exact h

theorem storeField_typed (h : Typed reg base heap (c :: cs)) (hfield : FieldOf c.bodies field)
    (hfits : field.kind.Fits vs) (hmeets : ∀ r ∈ vs.flatMap Value.refs, heap.Meets reg field r)
    (hstore : storeField heap c field start vs = .ok (heap', c')) :
    Typed reg base heap' (c' :: cs) := by
  have hbodies := (h.contexts c List.mem_cons_self).bodies
  unfold storeField at hstore
  split at hstore
  · cases hstore
    exact h.swap (.refl heap) h.objects (fits_afterField hbodies)
  next body rest heq =>
    rcases bind_eq_ok hstore with ⟨stored, hstored, hstore⟩
    cases hstore
    have hstored := report_ok hstored
    have hkeep := Heap.keepsTypes_of_store hstored
    refine h.swap hkeep (fun r hr hlt => ?_) (fits_afterField (hbodies.keep hkeep))
    rcases Heap.get_of_store hstored with ⟨hsize, j, hj, hget⟩
    rw [hget]
    split
    next hr' =>
      -- The object that was stored into is the one of the innermost body.
      have hspec : reg.find? (heap.get body.object).typeName = some body.spec := by
        rw [heq] at hbodies
        exact hbodies.2.1
      have hfound : body.spec.find? field.name = some field := hfield.2 body (by rw [heq]; rfl)
      have htyped := h.objects body.object (hr'.1 ▸ hr) hr'.2
      exact (htyped.store hspec hfound hfield.1 hfits hmeets hj).keep hkeep
    · exact (h.objects r hr (hsize ▸ hlt)).keep hkeep

theorem checkObject_eq_ok {p : Position} (h : checkObject reg heap field r p = .ok ()) :
    ∀ required, field.kind.required = some required →
      reg.isDerivedFrom (heap.get r).typeName required = true := by
  intro required hrequired
  unfold checkObject at h
  simp only [hrequired] at h
  split at h
  next hderived => exact hderived
  · cases h

/-- Bringing an object to its target. -/
theorem deliver_typed (h : Typed reg base heap (c :: cs)) (htarget : target.Fits reg heap c.bodies)
    (hr : r < heap.size) (hdeliver : deliver reg heap c target r = .ok (heap', c')) :
    Typed reg base heap' (c' :: cs) := by
  unfold deliver at hdeliver
  split at hdeliver
  · cases hdeliver
    exact h.enter rfl fun target htarget => nomatch htarget
  · cases hdeliver
    exact h.enter rfl fun target htarget => nomatch htarget
  next field start =>
    rcases bind_eq_ok hdeliver with ⟨_, hcheck, hstore⟩
    refine storeField_typed h htarget.1 ((FieldKind.fits_object_iff htarget.2).2 ⟨r, rfl⟩) ?_ hstore
    intro x hx
    have heq : x = r := by simpa [Value.refs] using hx
    rw [heq]
    exact ⟨hr, checkObject_eq_ok hcheck⟩
  next field start first before =>
    rcases bind_eq_ok hdeliver with ⟨_, hcheck, hdeliver⟩
    cases hdeliver
    refine h.enter rfl ⟨htarget.1, htarget.2.1, fun x hx => ?_⟩
    rcases List.mem_append.1 hx with hx | hx
    · exact htarget.2.2 x hx
    · rw [List.mem_singleton.1 hx]
      exact ⟨hr, checkObject_eq_ok hcheck⟩

/-- Naming an object and bringing it to its target. -/
theorem complete_typed (h : Typed reg base heap (c :: cs))
    (htarget : target.Fits reg heap c.bodies) (hr : r < heap.size)
    (hcomplete : complete reg heap c target r start = .ok (heap', c')) :
    Typed reg base heap' (c' :: cs) := by
  rcases bind_eq_ok hcomplete with ⟨named, hnamed, hdeliver⟩
  rcases declare_eq_ok hnamed with ⟨hmode, hbodies, -⟩
  have hfits := (h.contexts c List.mem_cons_self).mode
  rw [← hmode] at hfits
  exact deliver_typed (h.enter hbodies hfits) (hbodies ▸ htarget) hr hdeliver

/-- What a token leads to has been made sure of. -/
theorem leads_fits {mode' : Mode} (hlead : Leads reg c token mode mode')
    (hword : ∀ word, token.lexeme = .name word → Lexeme.IsWord word)
    (h : mode.Fits reg heap c.bodies) : mode'.Fits reg heap c.bodies := by
  cases hlead with
  | «include» | clone | use | template | path =>
      intro target htarget
      cases htarget
      exact h _ rfl
  -- The name of a type is a word of the text, and no keyword, for those lead elsewhere.
  | @type target word spec hl hclone huse hspec =>
      have hname := Registry.typeName_of_find? hspec
      exact ⟨⟨hname ▸ hspec, hname ▸ hword word hl, hname ▸ hclone, hname ▸ huse⟩, h _ rfl⟩
  | objectName => exact h
  -- The same for the name of a field, which is one of the innermost body.
  | @field word body rest field hl hconstants htemplates hbodies hfield =>
      have hname : field.name = word := by simpa using List.find?_some hfield
      refine ⟨⟨hname ▸ hword word hl, hname ▸ hconstants, hname ▸ htemplates⟩, ?_⟩
      intro body' hbody'
      rw [hbodies, List.head?_cons, Option.mem_some_iff] at hbody'
      rw [← hbody', hname]
      exact hfield
  | fieldColon => exact h
  | valueObject htype =>
      intro target htarget
      cases htarget
      exact ⟨h, htype⟩
  | valueObjects htype => exact ⟨h, htype, fun r hr => nomatch hr⟩
  | valueList htype hlist => exact ⟨h, htype, hlist, fun v hv => nomatch hv⟩
  | valueFirst htype hlist harity hv =>
      refine ⟨h, htype, hlist, types_append (List.forall_mem_nil _) hv, ?_⟩
      rw [harity, List.length_singleton]
      omega
  -- One place fewer is left behind each value.
  | valueNext hv =>
      rcases h with ⟨hfield, htype, hlist, hbefore, harity⟩
      refine ⟨hfield, htype, hlist, types_append hbefore hv, ?_⟩
      rw [List.length_append, List.length_singleton, ← harity]
      omega
  | listItem hv =>
      rcases h with ⟨hfield, htype, hlist, hbefore⟩
      exact ⟨hfield, htype, hlist, types_append hbefore hv⟩
  | listNext => exact h
  | elementFirst =>
      intro target htarget
      cases htarget
      exact h
  | elementNext => exact h
  | templateFirst =>
      intro target htarget
      cases htarget
      trivial
  | _ => exact fun target htarget => nomatch htarget

/-- What is gathered for a field fits it. -/
theorem gathers_fits (hgathers : Gathers token mode field start vs)
    (h : mode.Fits reg heap c.bodies) :
    FieldOf c.bodies field ∧ field.kind.Fits vs ∧
      ∀ r ∈ vs.flatMap Value.refs, heap.Meets reg field r := by
  -- Scalars refer to nothing.
  have hscalars : ∀ type (vs : List Value), (∀ v ∈ vs, v.type = .scalar type) →
      ∀ r ∈ vs.flatMap Value.refs, heap.Meets reg field r := by
    intro type vs hvs r hr
    rcases List.mem_flatMap.1 hr with ⟨v, hv, hr⟩
    rw [Value.refs_of_type (hvs v hv)] at hr
    cases hr
  cases hgathers with
  | @last _ type _ before v hv =>
      rcases h with ⟨hfield, htype, hlist, hbefore, harity⟩
      have hall := types_append hbefore hv
      refine ⟨hfield, (FieldKind.fits_scalar_iff htype).2 ⟨hall, fun _ => ?_⟩, hscalars _ _ hall⟩
      rw [List.length_append, List.length_singleton, ← harity]
  | @only _ type v htype hlist harity hv =>
      have hall : ∀ u ∈ [v], u.type = .scalar type := types_append (List.forall_mem_nil _) hv
      refine ⟨h, (FieldKind.fits_scalar_iff htype).2 ⟨hall, fun _ => ?_⟩, hscalars _ _ hall⟩
      rw [harity, List.length_singleton]
  | @none _ type htype hlist harity =>
      have hall : ∀ u ∈ ([] : List Value), u.type = .scalar type := List.forall_mem_nil _
      refine ⟨h, (FieldKind.fits_scalar_iff htype).2 ⟨hall, fun _ => ?_⟩, hscalars _ _ hall⟩
      rw [harity, List.length_nil]
  | list =>
      rcases h with ⟨hfield, htype, hlist, hall⟩
      refine ⟨hfield, (FieldKind.fits_scalar_iff htype).2 ⟨hall, fun hnot => ?_⟩,
        hscalars _ _ hall⟩
      rw [hlist] at hnot
      cases hnot
  | @objects _ _ before =>
      rcases h with ⟨hfield, htype, hmeets⟩
      refine ⟨hfield, (FieldKind.fits_objects_iff htype).2 ⟨before, rfl⟩, fun r hr => ?_⟩
      exact hmeets r (by simpa [Value.refs] using hr)

/-- What a reference stands for has been made. -/
theorem target_of_refers (hrefers : Refers reg heap c token mode target r)
    (h : mode.Fits reg heap c.bodies) : target.Fits reg heap c.bodies := by
  cases hrefers with
  | used | quoted | bare => exact h _ rfl
  | typed => exact h.2

theorem newObject_typed {spec : ObjectSpec} (hspec : reg.find? spec.typeName = some spec)
    (hspelled : spec.IsSpelled) (hconcrete : spec.isAbstract = false) (name : String) :
    (newObject source spec start name).Typed reg heap :=
  ⟨⟨spec, hspec, hspelled, hconcrete⟩, Instance.name_withName spec.create name, fun _ _ hfind => by
    have hnone : (none : Option Content) = some _ := hfind
    cases hnone⟩

/-- A new object is of its type, and its body is opened. -/
theorem openNew_typed (h : Typed reg base heap (c :: cs)) {spec : ObjectSpec}
    (hspec : reg.find? spec.typeName = some spec) (hspelled : spec.IsSpelled)
    (hconcrete : spec.isAbstract = false) (htarget : target.Fits reg heap c.bodies)
    (name : String) :
    Typed reg base (heap.alloc (newObject source spec start name))
      (c.openBody { object := heap.size, spec, start, target } :: cs) := by
  have hget : ∀ x, x ≠ heap.size →
      (heap.alloc (newObject source spec start name)).get x = heap.get x :=
    fun x hx => by rw [Heap.get_alloc, if_neg hx]
  have hkeep : heap.KeepsTypes (heap.alloc (newObject source spec start name)) := by
    refine ⟨by simp, fun x hx => ?_⟩
    rw [hget x (Nat.ne_of_lt hx)]
  have hbodies := (h.contexts c List.mem_cons_self).bodies
  refine h.swap hkeep (fun r hr hlt => ?_) ⟨⟨?_, ?_, htarget.keep hkeep, hbodies.keep hkeep⟩,
    fun target htarget => ?_⟩
  · by_cases heq : r = heap.size
    · rw [heq, Heap.get_alloc, if_pos rfl]
      exact newObject_typed hspec hspelled hconcrete name
    · rw [hget r heq]
      rw [Heap.size_alloc] at hlt
      exact (h.objects r hr (by lia)).keep hkeep
  · simp
  · rw [Heap.get_alloc, if_pos rfl]
    exact hspec
  · cases htarget

/-- Copies are of the types of what they were made from, and a new name changes nothing in that. -/
theorem copy_typed (hvalid : reg.IsValid) (hsound : Sound base heap (c :: cs))
    (h : Typed reg base heap (c :: cs)) (hr : Completed base heap (c :: cs) r) {copied : Heap}
    {copy : Ref} (hcopy : heap.copy reg r true = .ok (copied, copy))
    (htarget : target.Fits reg heap c.bodies) (name : String) :
    Typed reg base (copied.modify copy (renamedCopy source start name))
      (c.enter (.cloned copy start target) :: cs) := by
  have hcopied := Heap.typed_of_copy hvalid hcopy fun x hx => by
    have hx := (hsound.completed_of_reaches hr hx).1
    exact h.objects x hx.base_le hx.lt_size
  have hsame : ∀ x, (copied.modify copy (renamedCopy source start name)).get x = copied.get x ∨
      (copied.modify copy (renamedCopy source start name)).get x =
        renamedCopy source start name (copied.get x) := by
    intro x
    rw [Heap.get_modify]
    split
    · exact .inr rfl
    · exact .inl rfl
  have hkeep := Heap.keepsTypes_of_copy hcopy
  have hrename : copied.KeepsTypes (copied.modify copy (renamedCopy source start name)) := by
    refine ⟨by simp, fun x _ => ?_⟩
    rcases hsame x with heq | heq
    · rw [heq]
    · rw [heq]
      rfl
  have hboth : heap.KeepsTypes (copied.modify copy (renamedCopy source start name)) := by
    refine ⟨Nat.le_trans hkeep.1 hrename.1, fun x hx => ?_⟩
    rw [hrename.2 x (Nat.lt_of_lt_of_le hx hkeep.1), hkeep.2 x hx]
  have hbodies := (h.contexts c List.mem_cons_self).bodies
  refine h.swap hboth (fun x hx hlt => ?_) ⟨hbodies.keep hboth, fun target' htarget' => ?_⟩
  · have htyped : (copied.get x).Typed reg copied := by
      -- What was there before is untouched. The rest was copied from objects that are typed.
      by_cases hold : x < heap.size
      · rcases Heap.copy_eq_ok hcopy with ⟨-, -, hdeep⟩
        rw [(Heap.deepCopy_eq_ok rfl hdeep).2.1 x hold]
        exact (h.objects x hx hold).keep hkeep
      · exact hcopied x (Nat.le_of_not_lt hold) (by simpa using hlt)
    have htyped := htyped.keep hrename
    rcases hsame x with heq | heq
    · rw [heq]
      exact htyped
    · rw [heq]
      exact ⟨htyped.concrete, Instance.name_withName (copied.get x) name, htyped.slots⟩
  · cases htarget'
    exact htarget.keep hboth

/-- Every move keeps the invariant. -/
theorem Move.typed (hvalid : reg.IsValid) (hsound : Sound base heap (c :: cs))
    (h : Typed reg base heap (c :: cs))
    (hword : ∀ word, token.lexeme = .name word → Lexeme.IsWord word)
    (hmove : Move reg source heap c token heap' c') : Typed reg base heap' (c' :: cs) := by
  have hc := h.contexts c List.mem_cons_self
  cases hmove with
  | lead hlead => exact h.enter rfl (leads_fits hlead hword hc.mode)
  | constant =>
      refine h.enter rfl fun target htarget => ?_
      cases htarget
  | refer hrefers hdeliver =>
      rcases refers_names hrefers with ⟨-, -, name, hname⟩
      have hr := (hsound.named c List.mem_cons_self name _ hname).1
      exact deliver_typed h (target_of_refers hrefers hc.mode) hr.lt_size hdeliver
  | @openNew spec start name target hopens hconcrete =>
      have hmode := hc.mode
      -- With a name or without, the type was looked up when it was read.
      have hopen : (reg.find? spec.typeName = some spec ∧ spec.IsSpelled) ∧
          target.Fits reg heap c.bodies := by
        generalize c.mode = mode at hmode hopens
        cases hopens with
        | unnamed | named => exact hmode
      rcases hopen with ⟨⟨hspec, hspelled⟩, htarget⟩
      exact openNew_typed h hspec hspelled hconcrete htarget name
  | @copy start template templateStart name target r copied copy hmode hl hr hcopy =>
      have hfits := hc.mode
      have hsource := (hsound.named c List.mem_cons_self _ _ (Scopes.names_of_template? hr)).1
      rw [hmode] at hfits
      exact copy_typed hvalid hsound h hsource hcopy (hfits target rfl) name
  | @openCopy copy start target spec hmode hl hspec =>
      have hfits := hc.mode
      have hopen : copy ∈ openRefs (c :: cs) := by
        simp [openRefs, Context.openRefs, hmode, Mode.copy?]
      rw [hmode] at hfits
      refine h.swap (.refl heap) h.objects ⟨⟨(hsound.opened copy hopen).2, hspec,
        hfits target rfl, hc.bodies⟩, fun target htarget => ?_⟩
      cases htarget
  | @endCopy copy start target _ _ hmode hl hcomplete =>
      have hfits := hc.mode
      have hopen : copy ∈ openRefs (c :: cs) := by
        simp [openRefs, Context.openRefs, hmode, Mode.copy?]
      rw [hmode] at hfits
      exact complete_typed h (hfits target rfl) (hsound.opened copy hopen).2 hcomplete
  | @close body rest _ _ hmode hl hbodies hcomplete =>
      have hfit := hc.bodies
      rw [hbodies] at hfit
      -- The target of the body is one in the body around it.
      rcases hfit with ⟨hlt, -, htarget, hrest⟩
      refine complete_typed (h.swap (.refl heap) h.objects ⟨hrest, ?_⟩) htarget hlt hcomplete
      rw [hmode]
      intro target htarget
      cases htarget
  | store hgathers hstore =>
      rcases gathers_fits hgathers hc.mode with ⟨hfield, hfits, hmeets⟩
      exact storeField_typed h hfield hfits hmeets hstore

end

/-- A name that was read in a document has the spelling of one. -/
theorem isWord_of_read {doc : Document} {tokens after : TokenStream} {token : Token}
    {word : String} (h : doc.read tokens = .ok (token, after)) (hl : token.lexeme = .name word) :
    Lexeme.IsWord word := by
  -- The stream of expansions is read from the inside out, and every part of it is read by the same
  -- function.
  have hnext : ∀ base es, TokenStream.nextFrom base es = .ok (token, after) →
      Lexeme.IsWord word := by
    intro base es hes
    induction es with
    | nil =>
        rw [TokenStream.nextFrom] at hes
        split at hes
        · cases hes
        next read _ hread =>
          cases hes
          rcases token with ⟨lexeme, p⟩
          cases hl
          exact Cursor.isWord_of_next hread
    | cons e es ih =>
        rw [TokenStream.nextFrom] at hes
        split at hes
        · cases hes
        next read _ hread =>
          split at hes
          · exact ih hes
          · cases hes
            rcases read with ⟨lexeme, p⟩
            cases hl
            exact Cursor.isWord_of_next hread
  have h := located_ok h
  cases hread : tokens.next with
  | error e => simp [hread, Except.mapError] at h
  | ok result =>
      rw [hread] at h
      cases h
      exact hnext _ _ hread

/-- The invariant of a state. -/
def State.Typed (reg : Registry) (base : Nat) (s : State) : Prop :=
  Reader.Typed reg base s.heap s.contexts

section

variable {env : Environment} {base : Nat} {s s' : State}

/-- A document begins with nothing made sure of. -/
theorem fits_start {reg : Registry} {heap : Heap} : ({} : Context).Fits reg heap :=
  ⟨trivial, fun target htarget => by
    cases htarget
    trivial⟩

/-- Every step keeps the invariant. -/
theorem step_typed (hvalid : env.registry.IsValid) (hsound : s.Sound base)
    (h : s.Typed env.registry base) (hstep : step env s = .ok (.inl s')) :
    s'.Typed env.registry base := by
  cases stepped_of_step hstep with
  | expand hread hl hexpand =>
      rcases expand_eq_ok hexpand with ⟨tokens, rfl⟩
      exact h
  | move hread htokens hmove =>
      exact hmove.typed hvalid hsound.sound h fun word hl => isWord_of_read hread hl
  | enter hread hmode henter =>
      rcases enter_eq_ok_iff.1 henter with ⟨file, included, hopen, rfl⟩
      rcases openFile_eq_ok hopen with ⟨-, -, -, text, -, rfl⟩
      refine ⟨h.objects, fun c hc => ?_⟩
      rcases List.mem_cons.1 hc with rfl | hc
      · exact fits_start
      · exact h.contexts c hc
  | @leave w rest root _ hmode hwaiting hresume =>
      rcases resume_eq_ok hresume with ⟨heap', context, hcomplete, rfl⟩
      have hall := hsound.sound
      have htyped := h
      unfold State.Typed at htyped
      rw [contexts_of_waiting hwaiting] at hall htyped
      rcases hsound.waiting w (hwaiting ▸ List.mem_cons_self) with ⟨path, hincluding⟩
      have hroot := mem_held_of_finished hmode
      -- The document that is resumed is as it was when it began to wait.
      have houter : Reader.Typed env.registry base s.heap
          (w.document.context :: rest.map fun w => w.document.context) :=
        ⟨htyped.objects, fun c hc => htyped.contexts c (List.mem_cons_of_mem _ hc)⟩
      have htarget := (houter.contexts _ List.mem_cons_self).mode
      rw [hincluding] at htarget
      exact complete_typed houter (htarget _ rfl)
        (hall.held _ List.mem_cons_self root hroot).lt_size hcomplete

theorem steps_typed (hvalid : env.registry.IsValid) (hsound : s.Sound base)
    (h : s.Typed env.registry base) (hsteps : Steps env s s') : s'.Typed env.registry base := by
  have hboth : s'.Sound base ∧ s'.Typed env.registry base := by
    refine hsteps.preserves (P := fun s => s.Sound base ∧ s.Typed env.registry base) ?_ ⟨hsound, h⟩
    intro a b hstep hab
    exact ⟨(step_sound hab.1 hstep).1, step_typed hvalid hab.1 hab.2 hstep⟩
  exact hboth.2

theorem start_typed {heap : Heap} {input : Input} (h : input.start env heap = .ok s) :
    s.Typed env.registry heap.size := by
  rcases Input.start_eq_ok h with ⟨hheap, -⟩
  unfold State.Typed
  rw [contexts_of_start h, hheap]
  refine ⟨fun r hr hlt => absurd hlt (Nat.not_lt_of_le hr), fun c hc => ?_⟩
  rw [List.mem_singleton.1 hc]
  exact fits_start

/-- What was read is made of complete objects of their types. -/
theorem typed_of_read {heap : Heap} {input : Input} {out : Output}
    (hvalid : env.registry.IsValid) (hread : input.read env heap = .ok out) :
    ∀ r, Relation.ReflTransGen out.heap.Points out.root r →
      heap.size ≤ r ∧ r < out.heap.size ∧ (out.heap.get r).Typed env.registry out.heap := by
  rcases Input.read_eq_ok_iff.1 hread with ⟨first, hfirst, hrun⟩
  rcases steps_of_run hrun with ⟨last, hlast, hend⟩
  rcases step_eq_inr hend with ⟨-, hmode, hheap, -⟩
  have hsound := steps_sound (start_sound hfirst) hlast
  have htyped := steps_typed hvalid (start_sound hfirst) (start_typed hfirst) hlast
  intro r hr
  rw [hheap] at hr ⊢
  have hcompleted := completed_of_finished hsound hmode hr
  exact ⟨hcompleted.base_le, hcompleted.lt_size,
    htyped.objects r hcompleted.base_le hcompleted.lt_size⟩

end

end Reader

end GraphText

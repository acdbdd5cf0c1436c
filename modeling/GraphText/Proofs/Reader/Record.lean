import GraphText.Proofs.Reader.Framed
import GraphText.Proofs.Reader.Frozen

/-!
# What a body gives to its object

A body is a list of fields, and each field comes with values. `Fills` writes
them down as they come, apart from what the reader does with them: a field when
its name is read in the body, and for the field that is the last by then each
scalar that is read and each object that comes to it. What is read inside other
bodies, or in the files of includes, is no part of it.

The stores of the reader are in the order of the record, so what an object keeps
in the end is told by the last entry of each name.

## Main definitions

* `Record`, `Record.StoredIn`: what a body gives, and what an object keeps of it.
* `State.Begins`, `State.Gives`: a step at which a body gives something.
* `State.Adds`: what a step adds to the record.
* `Fills`: the record of a body up to a state.

## Theorems

* `Record.StoredIn.snoc`: one more store.
* `State.Adds.unique`: what a step adds to the record is determined.
-/

namespace GraphText

/-- The values that a field is given one by one, as they are stored: the objects of a list are
    stored together. -/
def FieldSpec.gathered (field : FieldSpec) (vs : List Value) : List Value :=
  if field.kind.valueType = .objectList then [.objects (vs.flatMap Value.refs)] else vs

section

variable {field : FieldSpec} {vs : List Value}

theorem FieldSpec.gathered_eq (h : field.kind.valueType ≠ .objectList) : field.gathered vs = vs :=
  if_neg h

theorem FieldSpec.gathered_objects (h : field.kind.valueType = .objectList) (rs : List Ref) :
    field.gathered (rs.map .object) = [.objects rs] := by
  have hrefs : (rs.map Value.object).flatMap Value.refs = rs := by
    induction rs with
    | nil => rfl
    | cons r rs ih => rw [List.map_cons, List.flatMap_cons, ih]; rfl
  rw [gathered, if_pos h, hrefs]

theorem FieldSpec.refs_gathered (field : FieldSpec) (vs : List Value) :
    (field.gathered vs).flatMap Value.refs = vs.flatMap Value.refs := by
  unfold gathered
  split
  · rw [List.flatMap_singleton]
    rfl
  · rfl

end

/-- Fields with the values that they are given, in the order in which they come. -/
abbrev Record := List (FieldSpec × List Value)

namespace Record

/-- What the slots of an object are, which were these before, when the fields of a record have been
    stored one after the other: for each name in the record the content of its last entry, and
    nothing else has changed. -/
structure StoredIn (record : Record) (spec : ObjectSpec) (before after : Table Content) : Prop where
  given : ∀ front field vs back, record = front ++ (field, vs) :: back →
    (∀ entry ∈ back, entry.1.name ≠ field.name) →
    spec.find? field.name = some field ∧ ∃ content,
      field.kind.store? field.name (field.gathered vs) = .ok content ∧
        after.find? field.name = some content
  kept : ∀ name, (∀ entry ∈ record, entry.1.name ≠ name) → after.find? name = before.find? name

theorem StoredIn.nil (spec : ObjectSpec) (slots : Table Content) :
    StoredIn [] spec slots slots where
  given := fun front field vs back h => by cases front <;> cases h
  kept := fun _ _ => rfl

/-- One more store. -/
theorem StoredIn.snoc {record : Record} {spec : ObjectSpec} {before after : Table Content}
    {field : FieldSpec} {vs : List Value} {content : Content}
    (h : record.StoredIn spec before after) (hfield : spec.find? field.name = some field)
    (hstore : field.kind.store? field.name (field.gathered vs) = .ok content) :
    StoredIn (record ++ [(field, vs)]) spec before (after.insert field.name content) where
  given := by
    intro front g ws back heq hback
    rw [Table.find?_insert]
    rcases List.eq_nil_or_concat back with rfl | ⟨back, entry, rfl⟩
    -- The entry is the new one.
    · rcases List.append_inj_right' heq rfl with hentry
      cases hentry
      exact ⟨hfield, content, hstore, if_pos rfl⟩
    -- The new one has another name, and stands behind it.
    · rw [List.concat_eq_append] at heq hback
      rw [← List.cons_append, ← List.append_assoc] at heq
      rcases List.append_inj' heq rfl with ⟨rfl, hentry⟩
      cases hentry
      have hne : g.name ≠ field.name := (hback _ (List.mem_append_right _ List.mem_cons_self)).symm
      rw [if_neg hne]
      exact h.given front g ws back rfl fun entry hentry =>
        hback entry (List.mem_append_left _ hentry)
  kept := by
    intro name hname
    rw [Table.find?_insert,
      if_neg (hname _ (List.mem_append_right _ List.mem_cons_self)).symm]
    exact h.kept name fun entry hentry => hname entry (List.mem_append_left _ hentry)

/-- A name in a record has a last entry. -/
theorem exists_last {record : Record} {name : String} (h : ∃ entry ∈ record, entry.1.name = name) :
    ∃ front field vs back, record = front ++ (field, vs) :: back ∧ field.name = name ∧
      ∀ entry ∈ back, entry.1.name ≠ name := by
  induction record with
  | nil =>
      rcases h with ⟨_, hmem, -⟩
      cases hmem
  | cons entry record ih =>
      by_cases hlater : ∃ entry ∈ record, entry.1.name = name
      · rcases ih hlater with ⟨front, field, vs, back, rfl, hname, hback⟩
        exact ⟨entry :: front, field, vs, back, rfl, hname, hback⟩
      · have hback : ∀ entry ∈ record, entry.1.name ≠ name :=
          fun entry hentry hname => hlater ⟨entry, hentry, hname⟩
        rcases h with ⟨found, hmem, hname⟩
        rcases List.mem_cons.1 hmem with rfl | hmem
        · exact ⟨[], found.1, found.2, record, rfl, hname, hback⟩
        · exact absurd hname (hback found hmem)

/-- What an object keeps was given in the record, or was there before. -/
theorem StoredIn.refs {record : Record} {spec : ObjectSpec} {before after : Table Content}
    {name : String} {content : Content} {y : Ref} (h : record.StoredIn spec before after)
    (hfind : after.find? name = some content) (hy : y ∈ content.refs) :
    (∃ entry ∈ record, ∃ v ∈ entry.2, y ∈ v.refs) ∨ before.find? name = some content := by
  by_cases hgiven : ∃ entry ∈ record, entry.1.name = name
  · rcases exists_last hgiven with ⟨front, field, vs, back, rfl, rfl, hback⟩
    rcases (h.given front field vs back rfl hback).2 with ⟨stored, hstore, hstored⟩
    rw [hfind] at hstored
    cases hstored
    have hmem := FieldKind.refs_of_store hstore hy
    rw [FieldSpec.refs_gathered] at hmem
    exact .inl ⟨(field, vs), List.mem_append_right _ List.mem_cons_self, List.mem_flatMap.1 hmem⟩
  · rw [h.kept name fun entry hentry hname => hgiven ⟨entry, hentry, hname⟩] at hfind
    exact .inr hfind

/-- What a record can grow by: a field, or a value of the last field. -/
inductive Part where
  | field (field : FieldSpec)
  | value (v : Value)

/-- A record grows by a part, or stays as it is. -/
inductive Grows : Option Part → Record → Record → Prop where
  | field {record f} : Grows (some (.field f)) record (record ++ [(f, [])])
  | value {front f vs v} : Grows (some (.value v)) (front ++ [(f, vs)]) (front ++ [(f, vs ++ [v])])
  | nothing {record} : Grows none record record

theorem Grows.unique {part? : Option Part} {record r r' : Record} (h : Grows part? record r)
    (h' : Grows part? record r') : r = r' := by
  cases h with
  | field | nothing => cases h'; rfl
  | @value front f vs v =>
      generalize hrecord : front ++ [(f, vs)] = record at h'
      cases h' with
      | value =>
          rcases List.append_inj' hrecord rfl with ⟨rfl, hentry⟩
          cases hentry
          rfl

end Record

namespace Reader

/-- The field that an object of this target is a value of. -/
def Target.field? : Target → Option FieldSpec
  | .root | .template => none
  | .field f _ | .element f _ _ _ => some f

/-- The body of the object that the first state waits for is the innermost one. -/
def State.Inner (a s : State) : Prop :=
  s.waiting.length = a.waiting.length ∧
    s.document.context.bodies.length = a.document.context.bodies.length + 1

/-- The modes in which a token is read as a scalar of a field. -/
inductive Takes (token : Token) : Mode → Value → Prop where
  | first {field type more v} (htype : field.kind.valueType = .scalar type)
      (hlist : field.kind.isList = false) (harity : field.kind.arity = more + 1)
      (hv : readScalar type token = .ok v) : Takes token (.fieldValue field) v
  | next {field type start more before v} (hv : readScalar type token = .ok v) :
      Takes token (.scalar field type start more before) v
  | item {field type start before v} (hv : readScalar type token = .ok v) :
      Takes token (.listItem field type start before) v

/-- The next token begins this field in the own body. -/
inductive State.Begins (a s : State) (field : FieldSpec) : Prop where
  | intro {token after word body rest} (hinner : a.Inner s)
      (hmode : s.document.context.mode = .item)
      (hread : s.document.read s.document.tokens = .ok (token, after))
      (hl : token.lexeme = .name word) (hconstants : word ≠ "CONSTANTS")
      (htemplates : word ≠ "TEMPLATES") (hbodies : s.document.context.bodies = body :: rest)
      (hfield : body.spec.find? word = some field)

/-- The step to the second state gives a value to a field of the own body: a scalar, which is the
    next token, or an object whose reading ends. -/
inductive State.Gives (env : Environment) (a s : State) : State → Value → Prop where
  | scalar {token after v s'} (hinner : a.Inner s)
      (hread : s.document.read s.document.tokens = .ok (token, after))
      (htakes : Takes token s.document.context.mode v) : a.Gives env s s' v
  | object {r target field s'} (hinner : a.Inner s') (hends : s.Ends env s' r target)
      (hfield : target.field? = some field) : a.Gives env s s' (.object r)

/-- What the step to the second state adds to the record of the own body. -/
inductive State.Adds (env : Environment) (a s s' : State) : Option Record.Part → Prop where
  | field {field} (h : a.Begins s field) : a.Adds env s s' (some (.field field))
  | value {v} (h : a.Gives env s s' v) : a.Adds env s s' (some (.value v))
  | nothing (hbegins : ∀ field, ¬ a.Begins s field) (hgives : ∀ v, ¬ a.Gives env s s' v) :
      a.Adds env s s' none

/-- The record of the body of the object that the first state waits for, up to a state in which the
    object is being read: the fields of the body in their order, each with its values in theirs. -/
inductive Fills (env : Environment) (a : State) : State → Record → Prop where
  | begin : Fills env a a []
  | next {s s' record record' part?} (h : Fills env a s record)
      (hstep : step env s = .ok (.inl s')) (hback : ¬ a.Back s')
      (hadds : a.Adds env s s' part?) (hgrows : record.Grows part? record') :
      Fills env a s' record'

section

variable {env : Environment} {reg : Registry} {source : Path} {heap heap' : Heap}
  {c c' : Context} {token : Token} {target : Target} {r : Ref} {a s s' : State}
  {start : Position} {mode mode' : Mode} {field : FieldSpec} {vs : List Value} {v : Value}

/-- The modes with whose token the reading of an object can end. -/
def Mode.CanEnd (mode : Mode) : Prop :=
  mode.target? ≠ none ∨ mode = .item ∨ ∃ root, mode = .finished root

/-- The modes behind an object that is a value of a field. -/
def Mode.IsBehindValue : Mode → Prop
  | itemEnd | elementEnd _ _ _ => True
  | _ => False

theorem Takes.not_canEnd (h : Takes token mode v) : ¬ mode.CanEnd := by
  rintro (htarget | hitem | ⟨root, hfinished⟩)
  · cases h <;> exact htarget rfl
  · cases h <;> cases hitem
  · cases h <;> cases hfinished

theorem Mode.IsBehindValue.not_canEnd (h : mode.IsBehindValue) : ¬ mode.CanEnd := by
  rintro (htarget | rfl | ⟨root, rfl⟩)
  · cases mode <;> first | exact htarget rfl | exact h
  · exact h
  · exact h

theorem canEnd_of_ends (h : s.Ends env s' r target) : s.document.context.mode.CanEnd := by
  cases h with
  | turn hread hends =>
      cases hends with
      | reference hrefers =>
          refine .inl ?_
          rw [target?_of_refers hrefers]
          exact Option.some_ne_none _
      | copy hmode =>
          refine .inl ?_
          rw [hmode]
          exact Option.some_ne_none _
      | body hmode => exact .inr (.inl hmode)
  | document hmode => exact .inr (.inr ⟨_, hmode⟩)

/-- Where a delivered object leads: behind a value, if it is one. -/
theorem isBehindValue_of_deliver (h : deliver reg heap c target r = .ok (heap', c')) :
    c'.mode.IsBehindValue ↔ target.field? ≠ none := by
  unfold deliver at h
  split at h
  · cases h
    exact ⟨fun hmode => hmode.elim, fun hfield => hfield rfl⟩
  · cases h
    exact ⟨fun hmode => hmode.elim, fun hfield => hfield rfl⟩
  · rcases bind_eq_ok h with ⟨_, -, h⟩
    rw [(storeField_framed h).2.2]
    exact iff_of_true trivial (Option.some_ne_none _)
  · rcases bind_eq_ok h with ⟨_, -, h⟩
    cases h
    exact iff_of_true trivial (Option.some_ne_none _)

theorem isBehindValue_of_ends (h : s.Ends env s' r target) :
    s'.document.context.mode.IsBehindValue ↔ target.field? ≠ none := by
  have hcomplete : ∀ {c : Context} {target r start c' heap heap'},
      complete env.registry heap c target r start = .ok (heap', c') →
        (c'.mode.IsBehindValue ↔ target.field? ≠ none) := by
    intro c target r start c' heap heap' h
    rcases bind_eq_ok h with ⟨named, -, hdeliver⟩
    exact isBehindValue_of_deliver hdeliver
  cases h with
  | turn hread hends =>
      cases hends with
      | reference hrefers hdeliver => exact isBehindValue_of_deliver hdeliver
      | copy hmode hbrace h => exact hcomplete h
      | body hmode hbrace hbodies h => exact hcomplete h
  | document hmode hwaiting hresume =>
      rcases resume_eq_ok hresume with ⟨heap, context, h, rfl⟩
      exact hcomplete h

/-- Which object a turn ends is determined. -/
theorem Ends.unique {target' : Target} {r' : Ref} {heap₁ heap₂ : Heap} {c₁ c₂ : Context}
    (h : Ends reg heap c token r target heap₁ c₁)
    (h' : Ends reg heap c token r' target' heap₂ c₂) : r = r' := by
  -- A turn ends an object in one of three ways, and the mode tells which.
  cases h with
  | reference hrefers =>
      cases h' with
      | reference hrefers' =>
          generalize c.mode = mode at hrefers hrefers'
          cases hrefers <;> cases hrefers' <;> simp_all
      | copy hmode' => rw [hmode'] at hrefers; cases hrefers
      | body hmode' => rw [hmode'] at hrefers; cases hrefers
  | copy hmode =>
      cases h' with
      | reference hrefers' => rw [hmode] at hrefers'; cases hrefers'
      | copy hmode' =>
          rw [hmode] at hmode'
          cases hmode'
          rfl
      | body hmode' => rw [hmode] at hmode'; cases hmode'
  | body hmode _ hbodies =>
      cases h' with
      | reference hrefers' => rw [hmode] at hrefers'; cases hrefers'
      | copy hmode' => rw [hmode] at hmode'; cases hmode'
      | body _ _ hbodies' =>
          rw [hbodies] at hbodies'
          cases hbodies'
          rfl

/-- Behind the last word of a document no turn ends an object. -/
theorem Ends.ne_finished {heap' : Heap} {c' : Context}
    (h : Ends reg heap c token r target heap' c') (root : Ref) : c.mode ≠ .finished root := by
  intro hfinished
  cases h with
  | reference hrefers => rw [hfinished] at hrefers; cases hrefers
  | copy hmode => rw [hfinished] at hmode; cases hmode
  | body hmode => rw [hfinished] at hmode; cases hmode

/-- So is which object a step ends. -/
theorem State.Ends.unique {target' : Target} {r' : Ref} (h : s.Ends env s' r target)
    (h' : s.Ends env s' r' target') : r = r' := by
  cases h with
  | document hmode =>
      cases h' with
      | document hmode' =>
          rw [hmode] at hmode'
          cases hmode'
          rfl
      | turn hread' hends' => exact absurd hmode (hends'.ne_finished _)
  | turn hread hends =>
      generalize hs' : State.mk _ _ _ _ _ = s' at h'
      cases h' with
      | document hmode' => exact absurd hmode' (hends.ne_finished _)
      | turn hread' hends' =>
          rw [hread] at hread'
          cases hread'
          exact hends.unique hends'

theorem Takes.unique {v' : Value} (h : Takes token mode v) (h' : Takes token mode v') : v = v' := by
  cases h with
  | first htype _ _ hv =>
      cases h' with
      | first htype' _ _ hv' =>
          rw [htype] at htype'
          cases htype'
          exact Except.ok.inj (hv.symm.trans hv')
  | next hv =>
      cases h' with
      | next hv' => exact Except.ok.inj (hv.symm.trans hv')
  | item hv =>
      cases h' with
      | item hv' => exact Except.ok.inj (hv.symm.trans hv')

/-- A name in front of a body item is no object that ends, and no scalar. -/
theorem State.Begins.not_gives (h : a.Begins s field) : ¬ a.Gives env s s' v := by
  rcases h with ⟨-, hmode, hread, hl, -⟩
  rintro (⟨-, -, htakes⟩ | ⟨-, hends, -⟩)
  · rw [hmode] at htakes
    cases htakes
  · cases hends with
    | document hmode' => rw [hmode] at hmode'; cases hmode'
    | turn hread' hends =>
        rw [hread] at hread'
        cases hread'
        cases hends with
        | reference hrefers => rw [hmode] at hrefers; cases hrefers
        | copy hmode' => rw [hmode] at hmode'; cases hmode'
        | body _ hbrace => rw [hl] at hbrace; cases hbrace

theorem State.Begins.unique {field' : FieldSpec} (h : a.Begins s field) (h' : a.Begins s field') :
    field = field' := by
  rcases h with ⟨-, -, hread, hl, -, -, hbodies, hfield⟩
  rcases h' with ⟨-, -, hread', hl', -, -, hbodies', hfield'⟩
  rw [hread] at hread'
  cases hread'
  rw [hl] at hl'
  cases hl'
  rw [hbodies] at hbodies'
  cases hbodies'
  exact Option.some.inj (hfield.symm.trans hfield')

theorem State.Gives.unique {v' : Value} (h : a.Gives env s s' v) (h' : a.Gives env s s' v') :
    v = v' := by
  cases h with
  | scalar hinner hread htakes =>
      cases h' with
      | scalar _ hread' htakes' =>
          rw [hread] at hread'
          cases hread'
          exact htakes.unique htakes'
      | object _ hends' => exact absurd (canEnd_of_ends hends') htakes.not_canEnd
  | object hinner hends =>
      cases h' with
      | scalar _ _ htakes' => exact absurd (canEnd_of_ends hends) htakes'.not_canEnd
      | object _ hends' => rw [hends.unique hends']

/-- What a step adds to the record is determined. -/
theorem State.Adds.unique {part? part?' : Option Record.Part} (h : a.Adds env s s' part?)
    (h' : a.Adds env s s' part?') : part? = part?' := by
  cases h with
  | field hbegins =>
      cases h' with
      | field hbegins' => rw [hbegins.unique hbegins']
      | value hgives' => exact absurd hgives' hbegins.not_gives
      | nothing hnot => exact absurd hbegins (hnot _)
  | value hgives =>
      cases h' with
      | field hbegins' => exact absurd hgives hbegins'.not_gives
      | value hgives' => rw [hgives.unique hgives']
      | nothing _ hnot => exact absurd hgives (hnot _)
  | nothing hbegins hgives =>
      cases h' with
      | field hbegins' => exact absurd hbegins' (hbegins _)
      | value hgives' => exact absurd hgives' (hgives _)
      | nothing => rfl

/-- A step adds nothing if it begins no field, takes no scalar, and does not lead behind a value. -/
theorem adds_nothing (hbegins : ∀ field, ¬ a.Begins s field)
    (htakes : ∀ token after v, s.document.read s.document.tokens = .ok (token, after) →
      ¬ Takes token s.document.context.mode v)
    (hends : a.Inner s' → s.document.context.mode.CanEnd →
      ¬ s'.document.context.mode.IsBehindValue) : a.Adds env s s' none := by
  refine .nothing hbegins fun v hgives => ?_
  cases hgives with
  | scalar hinner hread h => exact htakes _ _ _ hread h
  | object hinner h hfield =>
      refine hends hinner (canEnd_of_ends h) ((isBehindValue_of_ends h).2 ?_)
      rw [hfield]
      exact Option.some_ne_none _

/-- Outside the own body, nothing is added. -/
theorem adds_nothing_outside (hs : ¬ a.Inner s) (hs' : ¬ a.Inner s') : a.Adds env s s' none :=
  .nothing
    (fun _ hbegins => by
      rcases hbegins with ⟨hinner, -⟩
      exact hs hinner)
    fun _ hgives => by
      rcases hgives with ⟨hinner, -⟩ | ⟨hinner, -⟩
      · exact hs hinner
      · exact hs' hinner

end

end Reader

end GraphText

import GraphText.Proofs.Reader.Typed

/-!
# Values that have been read

The value of a field is read token by token, and with the last one the values are
complete: a scalar for each place of the field, the scalars or objects of a row when
its bracket closes, or one object. An object is complete when a reference for it has
been read, when its body is closed, when no body follows behind a copy, or when the
file that is included for it ends. Then an object of the wrong type is refused, and
what is left to do is to store the values.

Nothing else stands between reading and storing. Whatever becomes of the store
becomes of the step: it goes on with the new heap, or fails with the same cause. And
as soon as the values of a field are complete, the field is one of the innermost body
and they have the shape that it takes.

## Main definitions

* `HasObject`: an object that has been read, and what is around it.
* `HasValues`: the values of a field that have been read.
* `State.HasRead`: the same of a state, and of an object whose file ends.
* `State.Stores`: a step that comes to a store.

## Theorems

* `HasValues.turn_eq`: the turn behind the values of a field is a store.
* `State.HasRead.stores`: the step is a store.
* `State.HasRead.fits`: what has been read for a field fits it.
-/

namespace GraphText.Reader

/-- An object has been read for a target. The token is the last that stands for it or the one behind
    it, and the last context is the one around it. -/
inductive HasObject (reg : Registry) (heap : Heap) (c : Context) (token : Token) :
    Ref → Target → Context → Prop where
  | reference {target r} (h : Refers reg heap c token c.mode target r)
      (hkeyword : c.mode = .object target →
        token.lexeme ≠ .name "CLONE" ∧ token.lexeme ≠ .name "USE")
      (hbody : token.lexeme ≠ .punct '\x7b') : HasObject reg heap c token r target c
  | copy {copy start target} (hmode : c.mode = .cloned copy start target)
      (hbody : token.lexeme ≠ .punct '\x7b') : HasObject reg heap c token copy target c
  | body {body rest} (hmode : c.mode = .item) (hl : token.lexeme = .punct '\x7d')
      (hbodies : c.bodies = body :: rest) :
      HasObject reg heap c token body.object body.target
        { c with scopes := c.scopes.close, bodies := rest }

/-- Whether the values of a mode stand in brackets. -/
def Mode.isBracketed : Mode → Bool
  | listItem .. | element .. => true
  | _ => false

/-- The values of a field have been read, and go to the first of these bodies. -/
inductive HasValues (reg : Registry) (heap : Heap) (c : Context) (token : Token) :
    FieldSpec → List Value → List Body → Prop where
  | gathered {field start vs} (h : Gathers token c.mode field start vs)
      (hclose : c.mode.isBracketed = true → token.lexeme = .punct ']') :
      HasValues reg heap c token field vs c.bodies
  | object {field start r outer} (h : HasObject reg heap c token r (.field field start) outer)
      (hcheck : checkObject reg heap field r start = .ok ()) :
      HasValues reg heap c token field [.object r] outer.bodies

/-- The values of a field have been read, for the object of this body. -/
inductive State.HasRead (env : Environment) (s : State) :
    FieldSpec → List Value → Body → Prop where
  | inside {token after field vs body rest}
      (hread : s.document.read s.document.tokens = .ok (token, after))
      (hl : token.lexeme ≠ .punct '$')
      (h : HasValues env.registry s.heap s.document.context token field vs (body :: rest)) :
      s.HasRead env field vs body
  /-- the file ends whose object is the value of the field -/
  | included {token after root w ws field start body rest}
      (hread : s.document.read s.document.tokens = .ok (token, after))
      (hend : token.lexeme = .eof) (hmode : s.document.context.mode = .finished root)
      (hwaiting : s.waiting = w :: ws) (htarget : w.target = .field field start)
      (hbodies : w.document.context.bodies = body :: rest)
      (hcheck : checkObject env.registry s.heap field root start = .ok ()) :
      s.HasRead env field [.object root] body

/-- The next step stores values in a field of an object, and fails if the store does. -/
structure State.Stores (env : Environment) (s : State) (object : Ref) (field : FieldSpec)
    (vs : List Value) : Prop where
  stored : ∀ heap, s.heap.store object field vs = .ok heap →
    ∃ s', step env s = .ok (.inl s') ∧ s'.heap = heap
  refused : ∀ cause, s.heap.store object field vs = .error cause →
    ∃ location, step env s = .error ⟨cause, location⟩

section

variable {reg : Registry} {source : Path} {heap : Heap} {c outer : Context} {token : Token}
  {field : FieldSpec} {start : Position} {r : Ref} {vs : List Value} {bodies : List Body}

/-- Naming an object does not keep it from its field. -/
theorem complete_field (reg : Registry) (heap : Heap) (c : Context) (field : FieldSpec)
    (start : Position) (r : Ref) (p : Position) :
    ∃ c', c'.bodies = c.bodies ∧
      complete reg heap c (.field field start) r p =
        deliver reg heap c' (.field field start) r := by
  cases hname : (heap.get r).name with
  | none =>
      refine ⟨c, rfl, ?_⟩
      simp only [complete, declare, hname]
      rfl
  | some name =>
      refine ⟨{ c with scopes := c.scopes.define name r }, rfl, ?_⟩
      simp only [complete, declare, hname]
      rfl

/-- An object that has been read is brought to its field. -/
theorem HasObject.turn_eq (h : HasObject reg heap c token r (.field field start) outer)
    (source : Path) :
    ∃ c', c'.bodies = outer.bodies ∧
      (turn reg source heap c token = takeWith (deliver reg heap c' (.field field start) r) ∨
        turn reg source heap c token = keepWith (deliver reg heap c' (.field field start) r)) := by
  generalize htarget : Target.field field start = target at h
  -- Behind a reference the mode and the token say what is done; a copy and a body are named first.
  cases h with
  | reference hrefers hkeyword hbody =>
      refine ⟨c, rfl, ?_⟩
      generalize hm : c.mode = mode at hrefers hkeyword
      cases hrefers with
      | used hl hr =>
          left
          simp only [turn, hm, hl, resolve, hr]
          rfl
      | quoted hl hr =>
          left
          simp only [turn, hm, beginObject, hl, resolve, hr]
          rfl
      | @bare _ word _ hl hspec hr =>
          left
          have hplain := hkeyword rfl
          rw [hl] at hplain
          have hclone : word ≠ "CLONE" := fun heq => hplain.1 (by rw [heq])
          have huse : word ≠ "USE" := fun heq => hplain.2 (by rw [heq])
          simp only [turn, hm, beginObject, hl, if_neg hclone, if_neg huse, hspec, hr]
      | @typed spec start' name _ _ hr hderived =>
          have hresolved : resolveTyped reg heap c spec name start' = .ok r := by
            rw [resolveTyped, hr]
            exact if_pos hderived
          simp only [turn, hm]
          split
          next hl => exact absurd hl hbody
          next => exact .inl (by rw [hresolved]; rfl)
          next => exact .inr (by rw [hresolved]; rfl)
  | @copy copy p _ hm hbody =>
      subst htarget
      rcases complete_field reg heap c field start r p with ⟨c', hbodies, hcomplete⟩
      refine ⟨c', hbodies, .inr ?_⟩
      simp only [turn, hm, if_neg hbody, hcomplete]
  | @body body rest hm hl hbodies =>
      rcases complete_field reg heap { c with scopes := c.scopes.close, bodies := rest } field start
        body.object body.start with ⟨c', hbodies', hcomplete⟩
      rw [hm] at hcomplete
      refine ⟨c', hbodies', .inl ?_⟩
      simp only [turn, hm, beginItem, hl, closeBody, hbodies, ← htarget, hcomplete]

/-- The turn behind the values of a field is a store. -/
theorem HasValues.turn_eq (h : HasValues reg heap c token field vs bodies) (source : Path) :
    ∃ start c', c'.bodies = bodies ∧
      (turn reg source heap c token = takeWith (storeField heap c' field start vs) ∨
        turn reg source heap c token = keepWith (storeField heap c' field start vs)) := by
  cases h with
  | gathered hgathers hclose =>
      rename_i start
      refine ⟨start, c, rfl, ?_⟩
      generalize hm : c.mode = mode at hgathers hclose
      -- Nothing is taken for a field without places. In all other cases the token is the last
      -- scalar or the bracket.
      cases hgathers with
      | last hv =>
          left
          simp only [turn, hm, takeScalar, hv]
          rfl
      | only htype hlist harity hv =>
          left
          simp only [turn, hm, beginValue, htype, hlist, harity, takeScalar, hv]
          rfl
      | none htype hlist harity =>
          right
          simp only [turn, hm, beginValue, htype, hlist, harity]
          rfl
      | list =>
          left
          simp only [turn, hm, if_pos (hclose rfl)]
      | objects =>
          left
          simp only [turn, hm, if_pos (hclose rfl)]
  | @object start r outer hobject hcheck =>
      rcases hobject.turn_eq source with ⟨c', hbodies, hturn⟩
      refine ⟨start, c', hbodies, ?_⟩
      have hdeliver : deliver reg heap c' (.field field start) r =
          storeField heap c' field start [.object r] := by
        rw [deliver, hcheck]
        rfl
      rwa [hdeliver] at hturn

theorem storeField_of_error {body : Body} {rest : List Body} {cause : Cause}
    (hbodies : c.bodies = body :: rest) (h : heap.store body.object field vs = .error cause) :
    storeField heap c field start vs = .error (cause, start) := by
  unfold storeField
  simp only [hbodies, h, report]
  rfl

/-- The object of a target is one that the target may be given. -/
theorem HasObject.fits {target : Target} (h : HasObject reg heap c token r target outer)
    (hc : c.Fits reg heap) :
    target.Fits reg heap outer.bodies ∧ BodiesFit reg heap outer.bodies := by
  cases h with
  | reference hrefers => exact ⟨target_of_refers hrefers hc.mode, hc.bodies⟩
  | copy hm =>
      have hmode := hc.mode
      rw [hm] at hmode
      exact ⟨hmode _ rfl, hc.bodies⟩
  | body hm hl hbodies =>
      have hfit := hc.bodies
      rw [hbodies] at hfit
      exact ⟨hfit.2.2.1, hfit.2.2.2⟩

/-- The values of a field of the innermost body fit it. -/
theorem HasValues.fits (h : HasValues reg heap c token field vs bodies) (hc : c.Fits reg heap) :
    FieldOf bodies field ∧ field.kind.Fits vs ∧ BodiesFit reg heap bodies := by
  cases h with
  | gathered hgathers =>
      rcases gathers_fits hgathers hc.mode with ⟨hfield, hfits, -⟩
      exact ⟨hfield, hfits, hc.bodies⟩
  | @object start r outer hobject =>
      rcases hobject.fits hc with ⟨⟨hfield, htype⟩, hbodies⟩
      exact ⟨hfield, (FieldKind.fits_object_iff htype).2 ⟨r, rfl⟩, hbodies⟩

end

section

variable {env : Environment} {base : Nat} {s : State} {field : FieldSpec} {vs : List Value}
  {body : Body}

/-- The step behind the last document but one goes back to the one that waits. -/
theorem step_of_end {token : Token} {after : TokenStream} {root : Ref} {w : Waiting}
    {ws : List Waiting} (hread : s.document.read s.document.tokens = .ok (token, after))
    (hend : token.lexeme = .eof) (hmode : s.document.context.mode = .finished root)
    (hwaiting : s.waiting = w :: ws) :
    step env s = (s.resume env w ws root).map .inl := by
  have hl : token.lexeme ≠ .punct '$' := by
    rw [hend]
    exact Lexeme.noConfusion
  have hturn : turn env.registry s.document.source s.heap s.document.context token =
      .ok (.leave root) := by
    simp only [turn, hmode, if_pos hend]
  rw [step_of_turn hread hl hturn]
  simp only [Turn.outcome, hwaiting]

/-- The step behind the values of a field is a store. -/
theorem State.HasRead.stores (h : s.HasRead env field vs body) :
    s.Stores env body.object field vs := by
  -- In the document of the field the store is a turn; behind an include it is done on the way back.
  cases h with
  | inside hread hl h =>
      rcases h.turn_eq s.document.source with ⟨start, c', hbodies, hturn⟩
      refine ⟨fun heap hstore => ?_, fun cause hstore => ?_⟩
      · rw [storeField_of_store hbodies hstore] at hturn
        rcases hturn with hturn | hturn
        · exact ⟨_, step_of_turn hread hl hturn, rfl⟩
        · exact ⟨_, step_of_turn hread hl hturn, rfl⟩
      · rw [storeField_of_error hbodies hstore] at hturn
        rcases hturn with hturn | hturn
        · exact ⟨_, step_of_fault hread hl hturn⟩
        · exact ⟨_, step_of_fault hread hl hturn⟩
  | @included token after root w ws field start body rest hread hend hmode hwaiting htarget hbodies
      hcheck =>
      rcases complete_field env.registry s.heap w.document.context field start root w.start with
        ⟨c', hbodies', hcomplete⟩
      have hdeliver : complete env.registry s.heap w.document.context w.target root w.start =
          storeField s.heap c' field start [.object root] := by
        rw [htarget, hcomplete, deliver, hcheck]
        rfl
      refine ⟨fun heap hstore => ?_, fun cause hstore => ?_⟩
      · rw [storeField_of_store (hbodies'.trans hbodies) hstore] at hdeliver
        refine ⟨{ s with
          heap
          document := { w.document with context := c'.afterField }
          waiting := ws }, ?_, rfl⟩
        rw [step_of_end hread hend hmode hwaiting, State.resume, hdeliver]
        rfl
      · rw [storeField_of_error (hbodies'.trans hbodies) hstore] at hdeliver
        refine ⟨some (w.document.locate start), ?_⟩
        rw [step_of_end hread hend hmode hwaiting, State.resume, hdeliver]
        rfl

/-- What has been read for a field fits it, and the field is one of the type of the object. -/
theorem State.HasRead.fits (h : s.HasRead env field vs body) (hsound : s.Sound base)
    (htyped : s.Typed env.registry base) :
    env.registry.find? (s.heap.get body.object).typeName = some body.spec ∧
      body.spec.find? field.name = some field ∧ field.kind.Fits vs := by
  -- The context around the values is the one of the document, or of the one that waits.
  have hfits : ∃ rest, FieldOf (body :: rest) field ∧ field.kind.Fits vs ∧
      BodiesFit env.registry s.heap (body :: rest) := by
    cases h with
    | inside hread hl h => exact ⟨_, h.fits (htyped.contexts _ List.mem_cons_self)⟩
    | @included token after root w ws field start body rest hread hend hmode hwaiting htarget
        hbodies hcheck =>
        have hcontexts := htyped.contexts
        rw [contexts_of_waiting hwaiting] at hcontexts
        have houter := hcontexts w.document.context (List.mem_cons_of_mem _ List.mem_cons_self)
        rcases hsound.waiting w (hwaiting ▸ List.mem_cons_self) with ⟨path, hincluding⟩
        have htarget' := houter.mode
        rw [hincluding] at htarget'
        have hfits := htarget' w.target rfl
        rw [htarget] at hfits
        rw [hbodies] at hfits
        exact ⟨rest, hfits.1, (FieldKind.fits_object_iff hfits.2).2 ⟨root, rfl⟩,
          hbodies ▸ houter.bodies⟩
  rcases hfits with ⟨rest, hfield, hfits, hbodies⟩
  exact ⟨hbodies.2.1, hfield.2 body rfl, hfits⟩

end

end GraphText.Reader

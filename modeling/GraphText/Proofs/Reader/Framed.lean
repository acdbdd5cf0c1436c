import GraphText.Proofs.Reader.References

/-!
# What an object leaves in the scopes

An object is read through any number of steps, with bodies in it and files
included in it, each with definitions of its own. When it has been read, none of
these are left: the scopes are those from before, except that the innermost one
may know the object itself, by its name. Only the document remembers more.

This is said of any state that waits for an object, whether reading can come to
it or not. The reading of the object is over when its document is the innermost
one again, with as many open bodies as before and nothing that an object is
wanted for. Before that, there is one more body for each scope that was opened,
and a definition goes into the last of them, so it is gone when the body closes.
An include has scopes of its own, and the document that waits for it keeps its.

Bringing the object to its target may fail, if it is of the wrong type. The
scopes have been settled by then, so `State.Returns` is about the context in
which the object has been named and not yet brought there.

## Main definitions

* `State.Back`, `Reading`: when the reading of an object is over, and until then.
* `State.Returns`: how it ends.
* `Scope.bind`: what the scope around an object learns about it.
* `Scopes.Over`: scopes that have others in front of them.
* `Within`: a context in which an object is being read.

## Theorems

* `Within.move`: a turn stays within an object, or ends it.
* `within_of_reading`: so does every step.
* `scopes_framed`: what an object leaves.
-/

namespace GraphText

/-- The scope around an object of this name, when the object has been read. -/
def Scope.bind (scope : Scope) (target : Reader.Target) (name : Option String) (r : Ref) : Scope :=
  match name, target with
  | none, _ => scope
  | some name, .template => { scope with templates := scope.templates.insert name r }
  | some name, _ => { scope with objects := scope.objects.insert name r }

theorem Scope.constants_bind (scope : Scope) (target : Reader.Target) (name : Option String)
    (r : Ref) : (scope.bind target name r).constants = scope.constants := by
  unfold bind
  split <;> rfl

namespace Scopes

variable {before s : Scopes} {n : Nat} {f : Scope → Scope}

/-- Scopes with this many others in front of them, and with a document that has grown. -/
structure Over (before : Scopes) (n : Nat) (s : Scopes) : Prop where
  bodies : ∃ inner, inner.length = n ∧ s.bodies = inner ++ before.bodies
  outermost : s.outermost = before.outermost
  document : ∀ name, before.document.find? name ≠ none → s.document.find? name ≠ none

theorem Over.refl (s : Scopes) : s.Over 0 s :=
  ⟨⟨[], rfl, rfl⟩, rfl, fun _ h => h⟩

theorem Over.open (h : before.Over n s) : before.Over (n + 1) s.open := by
  rcases h.bodies with ⟨inner, hlength, hbodies⟩
  refine ⟨⟨{} :: inner, congrArg (· + 1) hlength, ?_⟩, h.outermost, h.document⟩
  rw [Scopes.open, hbodies]
  rfl

theorem Over.close (h : before.Over (n + 1) s) : before.Over n s.close := by
  rcases h.bodies with ⟨inner, hlength, hbodies⟩
  cases inner with
  | nil => cases hlength
  | cons first rest =>
      refine ⟨⟨rest, Nat.succ.inj hlength, ?_⟩, h.outermost, h.document⟩
      rw [Scopes.close, hbodies]
      rfl

/-- A change goes into the foremost scope. -/
theorem Over.modify (h : before.Over (n + 1) s) (f : Scope → Scope) :
    before.Over (n + 1) (s.modify f) := by
  rcases h.bodies with ⟨inner, hlength, hbodies⟩
  cases inner with
  | nil => cases hlength
  | cons first rest =>
      unfold Scopes.modify
      rw [hbodies]
      exact ⟨⟨f first :: rest, hlength, rfl⟩, h.outermost, h.document⟩

/-- The document loses no name when it gets one. -/
theorem Over.remember (h : before.Over n s) (name : String) (r : Ref) :
    before.Over n { s with document := s.document.insert name r } := by
  refine ⟨h.bodies, h.outermost, fun key hkey => ?_⟩
  rw [Table.find?_insert]
  split
  · exact Option.some_ne_none r
  · exact h.document key hkey

theorem Over.defineConstant (h : before.Over (n + 1) s) (name value : String) :
    before.Over (n + 1) (s.defineConstant name value) :=
  h.modify _

theorem Over.defineTemplate (h : before.Over (n + 1) s) (name : String) (r : Ref) :
    before.Over (n + 1) (s.defineTemplate name r) :=
  h.modify _

theorem Over.define (h : before.Over (n + 1) s) (name : String) (r : Ref) :
    before.Over (n + 1) (s.define name r) := by
  rcases h.modify fun scope => { scope with objects := scope.objects.insert name r } with
    ⟨hbodies, houtermost, -⟩
  exact ⟨hbodies, houtermost, (h.remember name r).document⟩

theorem Over.all (h : before.Over 0 s) : s.all = before.all := by
  rcases h.bodies with ⟨inner, hlength, hbodies⟩
  rw [List.length_eq_zero_iff.1 hlength, List.nil_append] at hbodies
  rw [Scopes.all, Scopes.all, hbodies, h.outermost]

/-- Scopes are the innermost one, which changes, and those around it, which do not. -/
theorem all_eq_cons (s : Scopes) :
    ∃ innermost around, s.all = innermost :: around ∧
      ∀ f, (s.modify f).all = f innermost :: around := by
  rcases s with ⟨bodies, outermost, document⟩
  cases bodies with
  | nil => exact ⟨outermost, [], rfl, fun f => rfl⟩
  | cons first rest => exact ⟨first, rest ++ [outermost], rfl, fun f => rfl⟩

end Scopes

namespace Reader

/-- The target of the object that a mode is about, also behind the object of a document. -/
def Mode.goal? : Mode → Option Target
  | finished _ => some .root
  | mode => mode.target?

/-- The reading of the object that the first state waits for is over. -/
def State.Back (a s : State) : Prop :=
  s.waiting.length = a.waiting.length ∧
    s.document.context.bodies.length = a.document.context.bodies.length ∧
    s.document.context.mode.target? = none

instance (a s : State) : Decidable (a.Back s) := by
  unfold State.Back
  infer_instance

/-- The states up to the end of the reading of the object that the first one waits for. -/
inductive Reading (env : Environment) (a : State) : State → Prop where
  | begin : Reading env a a
  | next {s s'} (h : Reading env a s) (hstep : step env s = .ok (.inl s')) (hback : ¬ a.Back s') :
      Reading env a s'

/-- The reading of an object ends in this state, with these documents waiting for the one that it is
    in and with this context, in which the object has been named and is still to be brought to its
    target. Whether it is an object of its own: a reference is not, and is not named again. -/
inductive State.Returns (env : Environment) (s : State) :
    Ref → Bool → List Waiting → Context → Prop where
  /-- a reference stands for the object -/
  | reference {token after target r}
      (hread : s.document.read s.document.tokens = .ok (token, after))
      (hdollar : token.lexeme ≠ .punct '$') (hbrace : token.lexeme ≠ .punct '\x7b')
      (h : Refers env.registry s.heap s.document.context token s.document.context.mode target r) :
      s.Returns env r false s.waiting s.document.context
  /-- no body follows behind a copy -/
  | copy {token after copy start target c}
      (hread : s.document.read s.document.tokens = .ok (token, after))
      (hdollar : token.lexeme ≠ .punct '$') (hbrace : token.lexeme ≠ .punct '\x7b')
      (hmode : s.document.context.mode = .cloned copy start target)
      (hdeclare : declare s.heap s.document.context target copy start = .ok c) :
      s.Returns env copy true s.waiting c
  /-- the body of a new object or of a copy is closed -/
  | body {token after body rest c}
      (hread : s.document.read s.document.tokens = .ok (token, after))
      (hbrace : token.lexeme = .punct '\x7d') (hmode : s.document.context.mode = .item)
      (hbodies : s.document.context.bodies = body :: rest)
      (hdeclare : declare s.heap
        { s.document.context with scopes := s.document.context.scopes.close, bodies := rest }
        body.target body.object body.start = .ok c) :
      s.Returns env body.object true s.waiting c
  /-- the document of an include has ended -/
  | document {token after w rest root c}
      (hread : s.document.read s.document.tokens = .ok (token, after))
      (heof : token.lexeme = .eof) (hmode : s.document.context.mode = .finished root)
      (hwaiting : s.waiting = w :: rest)
      (hdeclare : declare s.heap w.document.context w.target root w.start = .ok c) :
      s.Returns env root true rest c

section

variable {reg : Registry} {source : Path} {heap heap' : Heap} {c c' before : Context}
  {token : Token} {target goal : Target} {targets : List Target} {r : Ref} {start : Position}

theorem leads_goal {mode mode' : Mode} (h : Leads reg c token mode mode') :
    (mode'.target? = mode.target? ∧ mode'.goal? = mode.goal?) ∨
      (mode.target? = none ∧ mode'.goal? ≠ some .root) := by
  cases h <;> first | exact .inl ⟨rfl, rfl⟩ | exact .inr ⟨rfl, nofun⟩

theorem target?_of_refers {mode : Mode} (h : Refers reg heap c token mode target r) :
    mode.target? = some target := by
  cases h <;> rfl

theorem target?_of_opens {mode : Mode} {spec : ObjectSpec} {name : String}
    (h : Opens mode spec start name target) : mode.target? = some target := by
  cases h <;> rfl

theorem target?_of_gathers {mode : Mode} {field : FieldSpec} {vs : List Value}
    (h : Gathers token mode field start vs) : mode.target? = none := by
  cases h <;> rfl

theorem goal?_of_target? {mode : Mode} (h : mode.target? = some target) :
    mode.goal? = some target := by
  cases mode <;> first | exact h | cases h

theorem targets_afterField (c : Context) :
    c.afterField.bodies.map Body.target = c.bodies.map Body.target := by
  unfold Context.afterField
  cases c.bodies <;> rfl

/-- Storing values leaves the scopes and where objects go. -/
theorem storeField_framed {field : FieldSpec} {vs : List Value}
    (h : storeField heap c field start vs = .ok (heap', c')) :
    c'.scopes = c.scopes ∧ c'.bodies.map Body.target = c.bodies.map Body.target ∧
      c'.mode = .itemEnd := by
  unfold storeField at h
  split at h
  · cases h
    exact ⟨rfl, targets_afterField c, rfl⟩
  · rcases bind_eq_ok h with ⟨_, -, h⟩
    cases h
    exact ⟨rfl, targets_afterField c, rfl⟩

/-- So does bringing an object to its target, and only a document ends with it. -/
theorem deliver_framed (h : deliver reg heap c target r = .ok (heap', c')) :
    c'.scopes = c.scopes ∧ c'.bodies.map Body.target = c.bodies.map Body.target ∧
      c'.mode.target? = none ∧ (target ≠ .root → c'.mode.goal? = none) := by
  unfold deliver at h
  split at h
  · cases h
    exact ⟨rfl, rfl, rfl, fun hroot => absurd rfl hroot⟩
  · cases h
    exact ⟨rfl, rfl, rfl, fun _ => rfl⟩
  · rcases bind_eq_ok h with ⟨_, -, h⟩
    rcases storeField_framed h with ⟨hscopes, htargets, hmode⟩
    rw [hmode]
    exact ⟨hscopes, htargets, rfl, fun _ => rfl⟩
  · rcases bind_eq_ok h with ⟨_, -, h⟩
    cases h
    exact ⟨rfl, rfl, rfl, fun _ => rfl⟩

/-- The objects that are being read inside one another, by where they go, the innermost first. The
    outermost of them goes to this target, and the others are not documents. -/
def Nests (target : Target) : List Target → Option Target → Prop
  | [], goal => goal = some target
  | next :: rest, goal => goal ≠ some .root ∧ Nests target rest (some next)

/-- A context in which the object for this target is being read, with the bodies that go to these
    targets in front of those from before, and with this goal. -/
structure Within (before : Context) (target : Target) (targets : List Target) (goal : Option Target)
    (c : Context) : Prop where
  bodies : c.bodies.map Body.target = targets ++ before.bodies.map Body.target
  scopes : before.scopes.Over targets.length c.scopes
  nests : Nests target targets goal

/-- A context in which the object for this target is being read. -/
def Context.Reads (before : Context) (target : Target) (c : Context) : Prop :=
  ∃ targets, Within before target targets c.mode.goal? c ∧ (targets = [] → c.mode.target? ≠ none)

namespace Within

theorem length_bodies {goal : Option Target} (h : Within before target targets goal c) :
    c.bodies.length = targets.length + before.bodies.length := by
  simpa using congrArg List.length h.bodies

/-- If no body is open that was not open before, the object itself is wanted. -/
theorem eq_nil {goal : Option Target} (h : Within before target targets goal c)
    (hlength : c.bodies.length = before.bodies.length) : targets = [] := by
  rw [h.length_bodies] at hlength
  exact List.length_eq_zero_iff.1 (by omega)

/-- Where no object is wanted, there is a body. -/
theorem eq_cons {goal : Option Target} (h : Within before target targets goal c)
    (hmode : targets = [] → c.mode.target? ≠ none) (hnone : c.mode.target? = none) :
    ∃ next rest, targets = next :: rest := by
  cases targets with
  | nil => exact absurd hnone (hmode rfl)
  | cons next rest => exact ⟨next, rest, rfl⟩

/-- Within a body, other goals and other definitions may come up. -/
theorem pass {goal : Option Target} {next : Target}
    (h : Within before target (next :: targets) goal c)
    (hbodies : c'.bodies.map Body.target = c.bodies.map Body.target)
    (hscopes : before.scopes.Over (targets.length + 1) c'.scopes)
    (hgoal : c'.mode.goal? ≠ some .root) : before.Reads target c' :=
  ⟨next :: targets, ⟨hbodies.trans h.bodies, hscopes, hgoal, h.nests.2⟩, nofun⟩

/-- A body opens, of an object that is wanted. -/
theorem openBody (h : Within before target targets (some goal) c) {body : Body}
    (hbody : body.target = goal) : before.Reads target (c.openBody body) := by
  refine ⟨goal :: targets, ⟨?_, h.scopes.open, nofun, h.nests⟩, nofun⟩
  rw [List.cons_append, ← h.bodies, ← hbody]
  rfl

/-- An object that was wanted has been brought to its target: it is the whole one, or a part. -/
theorem deliver (h : Within before target targets (some goal) c)
    (hdeliver : Reader.deliver reg heap c goal r = .ok (heap', c')) :
    (c'.bodies.length = before.bodies.length ∧ c'.mode.target? = none) ∨
      before.Reads target c' := by
  rcases deliver_framed hdeliver with ⟨hscopes, hbodies, hnone, hgoal⟩
  cases targets with
  | nil =>
      refine .inl ⟨?_, hnone⟩
      simpa using congrArg List.length (hbodies.trans h.bodies)
  | cons next rest =>
      refine .inr (h.pass hbodies (hscopes ▸ h.scopes) ?_)
      rw [hgoal fun hroot => h.nests.1 (congrArg some hroot)]
      nofun

/-- Within a body, a name goes into a scope in front. -/
theorem declare {next : Target} (h : Within before target (next :: targets) (some goal) c)
    (hdeclare : Reader.declare heap c goal r start = .ok c') :
    Within before target (next :: targets) (some goal) c' := by
  unfold Reader.declare at hdeclare
  split at hdeclare
  · cases hdeclare
    exact ⟨h.bodies, h.scopes.defineTemplate _ r, h.nests⟩
  · cases hdeclare
    exact ⟨h.bodies, h.scopes.define _ r, h.nests⟩
  · cases hdeclare
  · cases hdeclare
    exact h

/-- An object that was wanted has been read: it is the whole one, or a part. -/
theorem complete (h : Within before target targets (some goal) c)
    (hcomplete : Reader.complete reg heap c goal r start = .ok (heap', c')) :
    (c'.bodies.length = before.bodies.length ∧ c'.mode.target? = none) ∨
      before.Reads target c' := by
  rcases bind_eq_ok hcomplete with ⟨named, hdeclare, hdeliver⟩
  cases targets with
  | nil =>
      rcases deliver_framed hdeliver with ⟨-, hbodies, hnone, -⟩
      rw [(declare_eq_ok hdeclare).2.1] at hbodies
      refine .inl ⟨?_, hnone⟩
      simpa using congrArg List.length (hbodies.trans h.bodies)
  | cons next rest => exact (h.declare hdeclare).deliver hdeliver

/-- A body closes, and its object is the one that was wanted in front of it. -/
theorem close {goal : Option Target} {body : Body} {rest : List Body}
    (h : Within before target targets goal c) (hbodies : c.bodies = body :: rest)
    (hmode : targets = [] → c.mode.target? ≠ none) (hnone : c.mode.target? = none) :
    ∃ outer, targets = body.target :: outer ∧ Within before target outer (some body.target)
      { c with scopes := c.scopes.close, bodies := rest } := by
  rcases h.eq_cons hmode hnone with ⟨next, outer, rfl⟩
  have hmap := h.bodies
  rw [hbodies, List.map_cons, List.cons_append, List.cons.injEq] at hmap
  rcases hmap with ⟨rfl, hrest⟩
  exact ⟨outer, rfl, hrest, h.scopes.close, h.nests.2⟩

/-- What the scopes are when the whole object has been named. -/
theorem framed (h : Within before target [] (some goal) c)
    (hdeclare : Reader.declare heap c goal r start = .ok c') :
    ∃ innermost around, before.scopes.all = innermost :: around ∧
      c'.scopes.all = innermost.bind target (heap.get r).name r :: around ∧
      ∀ name, before.scopes.document.find? name ≠ none →
        c'.scopes.document.find? name ≠ none := by
  have htarget : goal = target := Option.some.inj h.nests
  subst htarget
  rcases c.scopes.all_eq_cons with ⟨innermost, around, hall, hmodify⟩
  refine ⟨innermost, around, h.scopes.all.symm.trans hall, ?_⟩
  unfold Reader.declare at hdeclare
  -- A template goes to the templates, any other object to the objects, and one without a name to
  -- neither.
  split at hdeclare
  next name hname =>
    cases hdeclare
    refine ⟨?_, ?_⟩
    · rw [hname]
      exact hmodify _
    · intro key hkey
      rw [show (c.scopes.defineTemplate name r).document = c.scopes.document from
        Scopes.document_modify _ _]
      exact h.scopes.document key hkey
  next name hname hnot =>
    cases hdeclare
    refine ⟨?_, (h.scopes.remember name r).document⟩
    rw [hname, Scope.bind]
    · exact hmodify _
    · exact hnot
  · cases hdeclare
  next hname _ =>
    cases hdeclare
    rw [hname]
    exact ⟨hall, h.scopes.document⟩

end Within

/-- A turn stays within the object that is being read, or ends it. -/
theorem Context.Reads.move (h : before.Reads target c)
    (hmove : Move reg source heap c token heap' c') :
    (c'.bodies.length = before.bodies.length ∧ c'.mode.target? = none) ∨
      before.Reads target c' := by
  rcases h with ⟨targets, h, hmode⟩
  -- A body that opens adds a scope and a target, one that closes takes them away, and all else
  -- leaves the scopes around as they are.
  cases hmove with
  | @lead mode hlead =>
      rcases leads_goal hlead with ⟨htarget, hgoal⟩ | ⟨hnone, hgoal⟩
      · refine .inr ⟨targets, ⟨h.bodies, h.scopes, ?_⟩, fun hnil => ?_⟩
        · exact (congrArg (Nests target targets) hgoal).mpr h.nests
        · exact fun hnone => hmode hnil (htarget.symm.trans hnone)
      · rcases h.eq_cons hmode hnone with ⟨next, rest, rfl⟩
        exact .inr (h.pass rfl h.scopes hgoal)
  | constant hconstant =>
      rcases h.eq_cons hmode (by rw [hconstant]; rfl) with ⟨next, rest, rfl⟩
      exact .inr (h.pass rfl (h.scopes.defineConstant _ _) nofun)
  | refer hrefers hdeliver =>
      rw [goal?_of_target? (target?_of_refers hrefers)] at h
      exact h.deliver hdeliver
  | openNew hopens =>
      rw [goal?_of_target? (target?_of_opens hopens)] at h
      exact .inr (h.openBody rfl)
  | copy hcloning =>
      rw [hcloning] at h
      exact .inr ⟨targets, ⟨h.bodies, h.scopes, h.nests⟩, fun _ => Option.some_ne_none _⟩
  | openCopy hcloned =>
      rw [hcloned] at h
      exact .inr (h.openBody rfl)
  | endCopy hcloned _ hcomplete =>
      rw [hcloned] at h
      exact h.complete hcomplete
  | close hitem _ hbodies hcomplete =>
      rcases h.close hbodies hmode (by rw [hitem]; rfl) with ⟨outer, -, houter⟩
      exact houter.complete hcomplete
  | store hgathers hstore =>
      rcases h.eq_cons hmode (target?_of_gathers hgathers) with ⟨next, rest, rfl⟩
      rcases storeField_framed hstore with ⟨hscopes, hbodies, hend⟩
      refine .inr (h.pass hbodies (hscopes ▸ h.scopes) ?_)
      rw [hend]
      nofun

end

/-- A state in which the object that the first one waits for is being read: in its own document, or
    in one that is included in it. -/
inductive State.Within (a : State) (target : Target) (s : State) : Prop where
  | own (hwaiting : s.waiting = a.waiting)
      (h : a.document.context.Reads target s.document.context)
  | included {above w} (hwaiting : s.waiting = above ++ w :: a.waiting)
      (h : a.document.context.Reads target w.document.context)
      (hmode : w.document.context.mode.target? = some w.target)

section

variable {env : Environment} {a s s' : State} {target : Target} {r : Ref} {made : Bool}
  {waiting : List Waiting} {c : Context}

/-- The own document of the object has not come to its end. -/
theorem Context.Reads.ne_finished {before : Context} (h : before.Reads target c) (root : Ref) :
    c.mode ≠ .finished root := by
  rintro hfinished
  rcases h with ⟨targets, h, hmode⟩
  rcases h.eq_cons hmode (by rw [hfinished]; rfl) with ⟨next, rest, rfl⟩
  rw [hfinished] at h
  exact h.nests.1 rfl

/-- Where no more documents wait than did in front of the object, its own one is the innermost. -/
theorem State.Within.reads (h : a.Within target s)
    (hwaiting : s.waiting.length = a.waiting.length) :
    a.document.context.Reads target s.document.context := by
  cases h with
  | own _ h => exact h
  | included hstack =>
      rw [hstack] at hwaiting
      simp at hwaiting
      omega

/-- A step stays within the object that is being read, or ends it. -/
theorem State.Within.step (h : a.Within target s) (hstep : step env s = .ok (.inl s')) :
    a.Back s' ∨ a.Within target s' := by
  cases stepped_of_step hstep with
  | expand hread hl hexpand =>
      rcases expand_eq_ok hexpand with ⟨tokens, rfl⟩
      cases h with
      | own hwaiting h => exact .inr (.own hwaiting h)
      | included hwaiting h hmode => exact .inr (.included hwaiting h hmode)
  | move hread htokens hmove =>
      cases h with
      | own hwaiting h =>
          rcases h.move hmove with ⟨hlength, hnone⟩ | h
          · exact .inl ⟨congrArg List.length hwaiting, hlength, hnone⟩
          · exact .inr (.own hwaiting h)
      | included hwaiting h hmode => exact .inr (.included hwaiting h hmode)
  | @enter token after path start inner s' hread hmode henter =>
      rcases enter_eq_ok_iff.1 henter with ⟨file, document, -, rfl⟩
      refine .inr ?_
      -- One more document waits, above those that did.
      let w : Waiting := ⟨{ s.document with tokens := after }, start, inner, file⟩
      cases h with
      | own hwaiting h =>
          have hstack : w :: s.waiting = [] ++ w :: a.waiting := congrArg (List.cons w) hwaiting
          exact .included hstack h (congrArg Mode.target? hmode)
      | @included above outer hwaiting h houter =>
          have hstack : w :: s.waiting = (w :: above) ++ outer :: a.waiting :=
            congrArg (List.cons w) hwaiting
          exact .included hstack h houter
  | @leave w rest root _ hmode hwaiting hresume =>
      cases h with
      | own _ h => exact absurd hmode (h.ne_finished root)
      | @included above outer hstack h houter =>
          rcases resume_eq_ok hresume with ⟨heap, context, hcomplete, rfl⟩
          rw [hstack] at hwaiting
          cases above with
          | cons first above =>
              cases hwaiting
              exact .inr (.included rfl h houter)
          -- The document that goes on is the one that the object is in.
          | nil =>
              cases hwaiting
              rcases h with ⟨targets, h, -⟩
              rw [goal?_of_target? houter] at h
              rcases h.complete hcomplete with ⟨hlength, hnone⟩ | h
              · exact .inl ⟨rfl, hlength, hnone⟩
              · exact .inr (.own rfl h)

/-- Until the reading of an object is over, the state is within it. -/
theorem within_of_reading (hmode : a.document.context.mode = .object target)
    (h : Reading env a s) : a.Within target s := by
  induction h with
  | begin =>
      refine .own rfl ⟨[], ⟨rfl, .refl _, ?_⟩, fun _ => ?_⟩
      · rw [hmode]
        rfl
      · rw [hmode]
        exact Option.some_ne_none _
  | next _ hstep hback ih => exact (ih.step hstep).resolve_left hback

/-- How the scopes are left when the object that is being read has been read. -/
theorem State.Within.framed (h : a.Within target s) (hreturns : s.Returns env r made waiting c)
    (hwaiting : waiting.length = a.waiting.length)
    (hbodies : c.bodies.length = a.document.context.bodies.length) :
    ∃ innermost around, a.document.context.scopes.all = innermost :: around ∧
      c.scopes.all =
        (if made then innermost.bind target (s.heap.get r).name r else innermost) :: around ∧
      ∀ name, a.document.context.scopes.document.find? name ≠ none →
        c.scopes.document.find? name ≠ none := by
  -- However the object ends, no body is open inside of it then, so the innermost scope is the one
  -- it began in.
  cases hreturns with
  | reference hread hdollar hbrace hrefers =>
      rcases h.reads hwaiting with ⟨targets, hin, -⟩
      have hnil := hin.eq_nil hbodies
      subst hnil
      rcases a.document.context.scopes.all_eq_cons with ⟨innermost, around, hall, -⟩
      exact ⟨innermost, around, hall, hin.scopes.all.trans hall, hin.scopes.document⟩
  | copy hread hdollar hbrace hmode hdeclare =>
      rcases h.reads hwaiting with ⟨targets, hin, -⟩
      rw [(declare_eq_ok hdeclare).2.1] at hbodies
      have hnil := hin.eq_nil hbodies
      subst hnil
      rw [hmode] at hin
      exact hin.framed hdeclare
  | body hread hbrace hmode hopen hdeclare =>
      rcases h.reads hwaiting with ⟨targets, hin, hwanted⟩
      rw [(declare_eq_ok hdeclare).2.1] at hbodies
      rcases hin.close hopen hwanted (by rw [hmode]; rfl) with ⟨outer, -, houter⟩
      have hnil := houter.eq_nil hbodies
      subst hnil
      exact houter.framed hdeclare
  | document hread heof hmode hstack hdeclare =>
      cases h with
      | own heq h => exact absurd hmode (h.ne_finished _)
      | @included above outer heq h houter =>
          rw [heq] at hstack
          cases above with
          | cons first above =>
              cases hstack
              simp at hwaiting
              omega
          | nil =>
              cases hstack
              rcases h with ⟨targets, h, -⟩
              rw [(declare_eq_ok hdeclare).2.1] at hbodies
              have hnil := h.eq_nil hbodies
              subst hnil
              rw [goal?_of_target? houter] at h
              exact h.framed hdeclare

/-- An object whose own document has no body open that was not open before is still wanted. -/
theorem Context.Reads.wanted {before : Context} (h : before.Reads target c)
    (hlength : c.bodies.length = before.bodies.length) : c.mode.target? ≠ none := by
  rcases h with ⟨targets, h, hmode⟩
  exact hmode (h.eq_nil hlength)

theorem Context.Reads.length_le {before : Context} (h : before.Reads target c) :
    before.bodies.length ≤ c.bodies.length := by
  rcases h with ⟨targets, h, -⟩
  rw [h.length_bodies]
  exact Nat.le_add_left _ _

theorem length_of_targets {c' : Context}
    (h : c'.bodies.map Body.target = c.bodies.map Body.target) :
    c'.bodies.length = c.bodies.length := by
  simpa using congrArg List.length h

/-- Behind a type name and a name, a brace opens a body. -/
theorem length_of_brace {reg : Registry} {source : Path} {heap heap' : Heap} {c' : Context}
    {token : Token} {spec : ObjectSpec} {start : Position} {name : String} {t : Turn}
    (hmode : c.mode = .named spec start name target) (hl : token.lexeme = .punct '\x7b')
    (hturn : turn reg source heap c token = .ok t)
    (ht : t = .take heap' c' ∨ t = .keep heap' c') : c'.bodies.length = c.bodies.length + 1 := by
  have hopen : openObject source heap c spec start name target = .ok t := by
    simpa only [turn, hmode, hl] using hturn
  rcases openObject_eq_ok_iff.1 hopen with ⟨-, rfl⟩
  rcases ht with ht | ht
  · cases ht
    rfl
  · cases ht

/-- A turn that ends the reading of the object is one with which an object ends. -/
theorem Context.Reads.returns (h : a.document.context.Reads target s.document.context)
    {token : Token} {after : TokenStream} {t : Turn} {heap' : Heap} {c' : Context}
    (hread : s.document.read s.document.tokens = .ok (token, after))
    (hdollar : token.lexeme ≠ .punct '$')
    (hturn : turn env.registry s.document.source s.heap s.document.context token = .ok t)
    (ht : t = .take heap' c' ∨ t = .keep heap' c')
    (hlength : c'.bodies.length = a.document.context.bodies.length)
    (hnone : c'.mode.target? = none) :
    ∃ r made c, s.Returns env r made s.waiting c ∧
      c.bodies.length = a.document.context.bodies.length ∧ c'.scopes = c.scopes := by
  have hmove : Move env.registry s.document.source s.heap s.document.context token heap' c' := by
    have hcases := turn_cases hturn
    rcases ht with rfl | rfl <;> exact hcases
  cases hmove with
  | lead hlead =>
      rcases leads_goal hlead with ⟨htarget, -⟩ | ⟨hnone', -⟩
      · exact absurd (htarget.symm.trans hnone) (h.wanted hlength)
      · exact absurd hnone' (h.wanted hlength)
  | constant hconstant => exact absurd (by rw [hconstant]; rfl) (h.wanted hlength)
  | refer hrefers hdeliver =>
      rcases deliver_framed hdeliver with ⟨hscopes, hbodies, -⟩
      have hsame := length_of_targets hbodies
      refine ⟨_, false, _, .reference hread hdollar (fun hl => ?_) hrefers, hsame ▸ hlength,
        hscopes⟩
      -- A brace is not taken for the token behind a reference.
      cases hm : s.document.context.mode <;> rw [hm] at hrefers <;> cases hrefers
      case refer.named.typed =>
        have hlonger := length_of_brace hm hl hturn ht
        omega
      all_goals simp_all
  | openNew hopens => exact absurd h.length_le (Nat.not_le_of_lt (hlength ▸ Nat.lt_succ_self _))
  | copy hcloning => exact absurd hnone (Option.some_ne_none _)
  | openCopy hcloned => exact absurd h.length_le (Nat.not_le_of_lt (hlength ▸ Nat.lt_succ_self _))
  | endCopy hcloned hbrace hcomplete =>
      rcases bind_eq_ok hcomplete with ⟨named, hdeclare, hdeliver⟩
      rcases deliver_framed hdeliver with ⟨hscopes, hbodies, -⟩
      have hsame := length_of_targets hbodies
      exact ⟨_, true, named, .copy hread hdollar hbrace hcloned hdeclare, hsame ▸ hlength, hscopes⟩
  | close hitem hbrace hopen hcomplete =>
      rcases bind_eq_ok hcomplete with ⟨named, hdeclare, hdeliver⟩
      rcases deliver_framed hdeliver with ⟨hscopes, hbodies, -⟩
      have hsame := length_of_targets hbodies
      exact ⟨_, true, named, .body hread hbrace hitem hopen hdeclare, hsame ▸ hlength, hscopes⟩
  | store hgathers hstore =>
      rcases storeField_framed hstore with ⟨-, hbodies, -⟩
      have hsame := length_of_targets hbodies
      exact absurd (target?_of_gathers hgathers) (h.wanted (hsame ▸ hlength))

theorem State.Within.length_le (h : a.Within target s) : a.waiting.length ≤ s.waiting.length := by
  cases h with
  | own hwaiting _ => exact Nat.le_of_eq (congrArg List.length hwaiting.symm)
  | included hwaiting _ _ =>
      rw [hwaiting, List.length_append, List.length_cons]
      omega

/-- The reading of an object is over only behind a state in which it ends. -/
theorem State.Within.returns (h : a.Within target s) (hstep : Reader.step env s = .ok (.inl s'))
    (hback : a.Back s') :
    ∃ r made c, s.Returns env r made s'.waiting c ∧
      c.bodies.length = a.document.context.bodies.length ∧
      s'.document.context.scopes = c.scopes := by
  rcases hback with ⟨hwaiting, hlength, hnone⟩
  rcases step_eq_ok hstep with
    ⟨token, after, hread, ⟨hdollar, doc, hexpand, hs'⟩ | ⟨hdollar, t, hturn⟩⟩
  · cases hs'
    rcases expand_eq_ok hexpand with ⟨tokens, rfl⟩
    exact absurd hnone ((h.reads hwaiting).wanted hlength)
  · rw [step_of_turn hread hdollar hturn] at hstep
    cases t with
    | take heap context =>
        cases hstep
        exact (h.reads hwaiting).returns hread hdollar hturn (.inl rfl) hlength hnone
    | keep heap context =>
        cases hstep
        exact (h.reads hwaiting).returns hread hdollar hturn (.inr rfl) hlength hnone
    | enter path start target =>
        rcases map_eq_ok hstep with ⟨_, henter, heq⟩
        cases heq
        rcases enter_eq_ok_iff.1 henter with ⟨file, document, -, rfl⟩
        -- Behind the beginning of an include, one more document waits.
        have hlonger : a.waiting.length ≤ s.waiting.length := h.length_le
        change s.waiting.length + 1 = a.waiting.length at hwaiting
        omega
    | leave root =>
        have hmode : s.document.context.mode = .finished root := turn_cases hturn
        have heof : token.lexeme = .eof := by
          simp only [turn, hmode] at hturn
          split at hturn
          next heof => exact heof
          · cases hturn
        cases h with
        | own _ h => exact absurd hmode (h.ne_finished root)
        | included hstack h houter =>
            simp only [Turn.outcome] at hstep
            split at hstep
            · cases hstep
            next w rest hrest =>
              rcases map_eq_ok hstep with ⟨_, hresume, heq⟩
              cases heq
              rcases resume_eq_ok hresume with ⟨heap, context, hcomplete, rfl⟩
              rcases bind_eq_ok hcomplete with ⟨named, hdeclare, hdeliver⟩
              rcases deliver_framed hdeliver with ⟨hscopes, hbodies, -⟩
              have hsame := length_of_targets hbodies
              exact ⟨root, true, named, .document hread heof hmode hrest hdeclare,
                hsame ▸ hlength, hscopes⟩

/-- The state after this many steps, if the object of the first state is being read until then. -/
def readingAfter? (env : Environment) (a : State) : Nat → State → Option State
  | 0, s => some s
  | n + 1, s =>
    match step env s with
    | .ok (.inl s') => if a.Back s' then none else readingAfter? env a n s'
    | _ => none

theorem reading_of_readingAfter? {n : Nat} (hreading : Reading env a s)
    (h : readingAfter? env a n s = some s') : Reading env a s' := by
  induction n generalizing s with
  | zero =>
      cases h
      exact hreading
  | succ n ih =>
      unfold readingAfter? at h
      split at h
      next next hstep =>
        split at h
        · cases h
        next hback => exact ih (hreading.next hstep hback) h
      · cases h

/-- What the reading of an object leaves in the scopes, from any state that waits for an object.
    When it ends, there are as many scopes as before, with the same constants, and all but the
    innermost one are what they were. The innermost one is what it was if the object is a reference.
    Otherwise all that is new in it is the name of the object, if it has one: among the templates if
    a template was read, and among the objects if not. The document has lost no name. A step leads
    back out of the object only in this way, and keeps these scopes. -/
theorem scopes_framed (hmode : a.document.context.mode = .object target)
    (hreading : Reading env a s) :
    (∀ r made waiting c, s.Returns env r made waiting c → waiting.length = a.waiting.length →
      c.bodies.length = a.document.context.bodies.length →
      c.scopes.all.length = a.document.context.scopes.all.length ∧
      c.scopes.all.map Scope.constants = a.document.context.scopes.all.map Scope.constants ∧
      (∃ innermost around, a.document.context.scopes.all = innermost :: around ∧
        c.scopes.all =
          (if made then innermost.bind target (s.heap.get r).name r else innermost) :: around) ∧
      ∀ name, a.document.context.scopes.document.find? name ≠ none →
        c.scopes.document.find? name ≠ none) ∧
    ∀ s', step env s = .ok (.inl s') → a.Back s' →
      ∃ r made c, s.Returns env r made s'.waiting c ∧
        c.bodies.length = a.document.context.bodies.length ∧
        s'.document.context.scopes = c.scopes := by
  have h := within_of_reading hmode hreading
  refine ⟨fun r made waiting c hreturns hwaiting hbodies => ?_, fun s' => h.returns⟩
  rcases h.framed hreturns hwaiting hbodies with ⟨innermost, around, hbefore, hafter, hdocument⟩
  -- A name that is bound changes no constants.
  refine ⟨?_, ?_, ⟨innermost, around, hbefore, hafter⟩, hdocument⟩
  · rw [hbefore, hafter, List.length_cons, List.length_cons]
  · rw [hbefore, hafter, List.map_cons, List.map_cons]
    split
    · rw [Scope.constants_bind]
    · rfl

/-- An object with a constant, a template and an object inside, in the field `next` of another. -/
def Input.nested : Input :=
  .text ("Node \x7b next: Node \"a\" \x7b [k: \"x\"], " ++
    "TEMPLATES: [Node \"t\" \x7b\x7d], next: Node \"b\" \x7b\x7d \x7d \x7d")

/-- Behind the object in the field, nothing of it is left in the scopes but its name. -/
theorem scopes_framed_nested :
    ∃ a s s', a.document.context.mode = .object (.field ⟨"next", .object none, false⟩ ⟨1, 14⟩) ∧
      Reading (.nodes fun _ => .error "") a s ∧
      step (.nodes fun _ => .error "") s = .ok (.inl s') ∧ a.Back s' ∧
      s'.document.context.scopes.all.length = a.document.context.scopes.all.length ∧
      s'.document.context.scopes.all.map Scope.constants =
        a.document.context.scopes.all.map Scope.constants ∧
      s'.document.context.scopes.all.map (fun scope => scope.objects.contains "a") =
        [true, false] := by
  have hrun : (Input.nested.stateAfter? (.nodes fun _ => .error "") .empty 5).any (fun a =>
      a.document.context.mode = .object (.field ⟨"next", .object none, false⟩ ⟨1, 14⟩) ∧
      (readingAfter? (.nodes fun _ => .error "") a 29 a).any (fun s =>
        (stateAfter? (.nodes fun _ => .error "") 1 s).any (fun s' =>
          a.Back s' ∧ s'.document.context.scopes.all.map (fun scope =>
            scope.objects.contains "a") = [true, false]))) = true := by
    decide +kernel
  rcases (Option.any_eq_true _ _).1 hrun with ⟨a, -, ha⟩
  rcases of_decide_eq_true ha with ⟨hmode, hwithin⟩
  rcases (Option.any_eq_true _ _).1 hwithin with ⟨s, hs, hlast⟩
  rcases (Option.any_eq_true _ _).1 hlast with ⟨s', hs', hend⟩
  rcases of_decide_eq_true hend with ⟨hback, hnames⟩
  have hreading := reading_of_readingAfter? .begin hs
  have hstep := step_of_stateAfter? hs'
  rcases scopes_framed hmode hreading with ⟨hreturned, hreturns⟩
  rcases hreturns s' hstep hback with ⟨r, made, c, hc, hlength, hscopes⟩
  rcases hreturned r made s'.waiting c hc hback.1 hlength with ⟨hall, hconstants, -⟩
  exact ⟨a, s, s', hmode, hreading, hstep, hback, hscopes ▸ hall, hscopes ▸ hconstants, hnames⟩

end

end Reader

end GraphText

import GraphText.Proofs.Reader.Carried
import GraphText.Proofs.Reader.Steps
import GraphText.Proofs.Token.Blur

/-!
# Two readers side by side

Two readers are run side by side, one on each of two texts that do not have
their tokens at the same places. They differ in nothing that can be seen, as far
as positions can be: every turn of one is a turn of the other, since no turn
looks at its position. Both open the same files for their includes, and read
these from the first position on.

The readers take their steps together, and what is left of their texts need not
be the same for that. A document that waits for an include is not looked at; all
that happens to it is that its include is done. So what relates the streams of
two documents is left open. It must hold of streams that look the same, and it
may depend on the mode the document is in, but not on anything that comes of the
end of an object. Where the streams of the innermost documents look the same,
the readers step alike; where they do not, it takes another argument, for which
the outcomes of two turns are compared here as well.

## Main definitions

* `Blur.Agree`: results that are related, or errors that look the same.
* `Blur.Left`, `Blur.Allows`: what relates what is left of two documents.
* `Blur.Documents`, `Blur.States`, `Blur.Outputs`: what looks the same but for that.

## Theorems

* `Blur.outcome`: turns that look the same have outcomes that do.
* `Blur.step_agree`: readers in front of the same words make the same step.
* `Blur.run_agree`: and so the same run.
-/

namespace GraphText

open Reader

namespace Blur

/-- Objects that keep their numbers, at places of which no more is left than is seen. -/
def carrier (b : Blur) : Carrier := .moved b.view

/-- What is seen of the place of an error. -/
def error (b : Blur) (e : Error) : Error :=
  { e with location := e.location.map (Location.moved b.view) }

/-- The results are related, or they are errors that look the same. -/
def Agree (b : Blur) {α β : Type} (R : α → β → Prop) : Except Error α → Except Error β → Prop
  | .ok x, .ok y => R x y
  | .error e, .error f => b.error e = b.error f
  | _, _ => False

section

variable {b : Blur} {α β : Type} {R : α → β → Prop} {y : Except Error β}

theorem Agree.of_ok {a : α} (h : b.Agree R (.ok a) y) : ∃ a', y = .ok a' ∧ R a a' := by
  cases y with
  | error f => exact h.elim
  | ok a' => exact ⟨a', rfl, h⟩

theorem Agree.of_error {e : Error} (h : b.Agree R (.error e) y) :
    ∃ f, y = .error f ∧ b.error e = b.error f := by
  cases y with
  | error f => exact ⟨f, rfl, h⟩
  | ok a' => exact h.elim

theorem Agree.symm {x : Except Error α} (h : b.Agree R x y) :
    b.Agree (fun a a' => R a' a) y x := by
  cases x with
  | error e =>
      rcases h.of_error with ⟨f, rfl, hef⟩
      exact hef.symm
  | ok a =>
      rcases h.of_ok with ⟨a', rfl, haa'⟩
      exact haa'

/-- What is done with results that agree agrees. -/
theorem Agree.bind {α' β' : Type} {S : α' → β' → Prop} {x : Except Error α}
    {f : α → Except Error α'} {g : β → Except Error β'} (h : b.Agree R x y)
    (hfg : ∀ a a', R a a' → b.Agree S (f a) (g a')) : b.Agree S (x >>= f) (y >>= g) := by
  cases x with
  | error e =>
      rcases h.of_error with ⟨e', rfl, heq⟩
      exact heq
  | ok a =>
      rcases h.of_ok with ⟨a', rfl, haa'⟩
      exact hfg a a' haa'

theorem Agree.map {α' β' : Type} {S : α' → β' → Prop} {x : Except Error α} {f : α → α'}
    {g : β → β'} (h : b.Agree R x y) (hfg : ∀ a a', R a a' → S (f a) (g a')) :
    b.Agree S (x.map f) (y.map g) :=
  h.bind hfg

end

/-- What relates what is left of two documents that are in a mode. -/
abbrev Left := Mode → TokenStream → TokenStream → Prop

/-- The relation holds of what looks the same, and is not lost when an object ends. -/
structure Allows (b : Blur) (L : Left) : Prop where
  same : ∀ {mode s t}, b.Streams s t → L mode s t
  behind : ∀ {mode mode' s t}, L mode s t → mode'.rank = 2 → L mode' s t

/-- The documents are of one source and look the same, and what is left of them is related. -/
structure Documents (b : Blur) (L : Left) (d e : Document) : Prop where
  source : d.source = e.source
  directory : d.directory = e.directory
  tokens : L d.context.mode d.tokens e.tokens
  context : d.context.carried b.carrier = e.context.carried b.carrier

/-- The waiting documents look the same, and what is left of them is related. -/
structure Waits (b : Blur) (L : Left) (v w : Waiting) : Prop where
  document : b.Documents L v.document w.document
  start : b.view v.start = b.view w.start
  target : v.target.carried b.carrier = w.target.carried b.carrier
  file : v.file = w.file

/-- The readers look the same, and what is left of their documents is related. -/
structure States (b : Blur) (L : Left) (s t : State) : Prop where
  heap : s.heap.moved b.view = t.heap.moved b.view
  dependencies : s.dependencies = t.dependencies
  document : b.Documents L s.document t.document
  waiting : List.Forall₂ (b.Waits L) s.waiting t.waiting
  rootFile : s.rootFile = t.rootFile

/-- The outputs look the same. -/
structure Outputs (b : Blur) (out out' : Output) : Prop where
  heap : out.heap.moved b.view = out'.heap.moved b.view
  root : out.root = out'.root
  dependencies : out.dependencies = out'.dependencies

theorem Outputs.symm {b : Blur} {out out' : Output} (h : b.Outputs out out') :
    b.Outputs out' out :=
  ⟨h.heap.symm, h.root.symm, h.dependencies.symm⟩

/-- The readers, or what they yield, look the same. -/
def Next (b : Blur) (L : Left) : State ⊕ Output → State ⊕ Output → Prop :=
  Sum.LiftRel (b.States L) b.Outputs

/-- What is left looks the same. -/
def same (b : Blur) : Left := fun _ => b.Streams

theorem allows_same (b : Blur) : b.Allows b.same :=
  ⟨id, fun h _ => h⟩

section

variable {b : Blur} {L : Left} {env : Environment} {s t : State} {d e : Document}

theorem documents_refl (hL : b.Allows L) (d : Document) : b.Documents L d d :=
  ⟨rfl, rfl, hL.same (.refl d.tokens), rfl⟩

/-- The readers of two texts before their first step. -/
theorem states_of_texts (env : Environment) (heap : Heap) {text text' : String}
    (h : L (.object .root) (.ofText text) (.ofText text')) :
    b.States L
      { heap, dependencies := [],
        document := .ofText Location.stringSource env.options.textDirectory text }
      { heap, dependencies := [],
        document := .ofText Location.stringSource env.options.textDirectory text' } :=
  ⟨rfl, rfl, ⟨rfl, rfl, h, rfl⟩, .nil, rfl⟩

/-- A fault of one cause at places that look the same. -/
theorem fault (hsource : d.source = e.source) {α β : Type} {R : α → β → Prop} (cause : Cause)
    {p q : Position} (hplace : b.view p = b.view q) :
    b.Agree R (d.located (.error (cause, p))) (e.located (.error (cause, q))) := by
  simp only [Document.located, Except.mapError, Agree, Blur.error, Document.locate,
    Option.map_some, Location.moved, hsource, hplace]

/-- Faults that look the same are errors that do. -/
theorem located (hsource : d.source = e.source) {α β : Type} {f : α → β} {x y : Result α}
    (hxy : b.carrier.result f x = b.carrier.result f y) :
    b.Agree (fun a a' => x = .ok a ∧ f a = f a') (d.located x) (e.located y) := by
  cases x with
  | error found =>
      cases y with
      | error found' =>
          rcases Prod.mk.inj (Except.error.inj hxy) with ⟨hcause, hplace⟩
          rw [← Prod.eta found, ← Prod.eta found', hcause]
          exact fault hsource found'.1 hplace
      | ok a' => cases hxy
  | ok a =>
      cases y with
      | error found' => cases hxy
      | ok a' => exact ⟨rfl, Except.ok.inj hxy⟩

/-- What a document reads next. -/
theorem read (hsource : d.source = e.source) {after after' : TokenStream}
    (htokens : b.Streams after after') :
    b.Agree (fun x y => x.1.lexeme = y.1.lexeme ∧ b.view x.1.position = b.view y.1.position ∧
      b.Streams x.2 y.2) (d.read after) (e.read after') := by
  rcases htokens.next with ⟨flaw, p, q, hs, ht, hplace⟩ | ⟨l, p, q, s', t', hs, ht, hplace, hnext⟩
  · rw [Document.read, hs, Document.read, ht]
    exact fault hsource _ hplace
  · rw [Document.read, hs, Document.read, ht]
    exact ⟨rfl, hplace, hnext⟩

/-- A constant is the same in contexts that look the same. -/
theorem Documents.constant? (h : b.Documents L d e) (name : String) :
    d.context.scopes.constant? name = e.context.scopes.constant? name := by
  have hscopes : d.context.scopes.mapRefs id = e.context.scopes.mapRefs id :=
    congrArg Context.scopes h.context
  rw [← Scopes.constant?_mapRefs (f := id), hscopes, Scopes.constant?_mapRefs]

theorem Documents.expand (hL : b.Allows L) (h : b.Documents L d e) {p q : Position}
    (hplace : b.view p = b.view q) {behind behind' : TokenStream}
    (hbehind : b.Streams behind behind') :
    b.Agree (b.Documents L) (d.expand env p behind) (e.expand env q behind') := by
  refine (read h.source hbehind).bind ?_
  rintro ⟨⟨l, p'⟩, after⟩ ⟨⟨l', q'⟩, after'⟩ ⟨rfl, hname, hafter⟩
  have hdepth : after.depth = after'.depth := hafter.expansions.length_eq
  cases l with
  | name name =>
      simp only [h.constant?, hdepth]
      cases e.context.scopes.constant? name with
      | none => exact fault h.source _ hname
      | some value =>
          simp only
          split
          · exact fault h.source _ hname
          · exact ⟨h.source, h.directory, hL.same (hafter.splice value hplace), h.context⟩
  | quoted text | number text | punct character | unknown character | eof =>
      exact fault h.source _ hname

theorem States.openFiles (h : b.States L s t) : s.openFiles = t.openFiles := by
  have hwaiting : ∀ vs ws, List.Forall₂ (b.Waits L) vs ws →
      vs.map Waiting.file = ws.map Waiting.file := by
    intro vs ws hall
    induction hall with
    | nil => rfl
    | cons hw _ ih => rw [List.map_cons, List.map_cons, hw.file, ih]
  rw [State.openFiles, State.openFiles, hwaiting _ _ h.waiting, h.rootFile]

/-- The same file is opened for includes that look the same. -/
theorem States.enter (hL : b.Allows L) (h : b.States L s t) {after after' : TokenStream}
    (hafter : L s.document.context.mode after after') (path : String) {p q : Position}
    (hstart : b.view p = b.view q) {target target' : Target}
    (htarget : target.carried b.carrier = target'.carried b.carrier) :
    b.Agree (b.States L) (s.enter env after path p target) (t.enter env after' path q target') := by
  have hdoc := h.document
  unfold State.enter
  simp only [hdoc.directory, h.openFiles, hdoc.source, h.dependencies]
  have hopened : b.carrier.result id
      (report p (openFile env t.openFiles (t.document.directory.join ⟨path⟩))) =
        b.carrier.result id
          (report q (openFile env t.openFiles (t.document.directory.join ⟨path⟩))) := by
    have hplace : b.carrier.place p = b.carrier.place q := hstart
    rw [← report_carried, ← report_carried, hplace]
  refine (located hdoc.source hopened).bind ?_
  rintro ⟨file, included⟩ opened' ⟨-, rfl⟩
  -- Both read the file from its beginning.
  exact ⟨h.heap, rfl, documents_refl hL included,
    .cons ⟨⟨rfl, rfl, hafter, hdoc.context⟩, hstart, htarget, rfl⟩ h.waiting, h.rootFile⟩

/-- Documents that have waited go on alike. -/
theorem States.resume (hL : b.Allows L) (h : b.States L s t) {v w : Waiting} (hw : b.Waits L v w)
    {rest rest' : List Waiting} (hrest : List.Forall₂ (b.Waits L) rest rest') (root : Ref) :
    b.Agree (b.States L) (s.resume env v rest root) (t.resume env w rest' root) := by
  have hcomplete : b.carrier.result b.carrier.pair
      (complete env.registry s.heap v.document.context v.target root v.start) =
        b.carrier.result b.carrier.pair
          (complete env.registry t.heap w.document.context w.target root w.start) := by
    have hheap : b.carrier.heap s.heap = b.carrier.heap t.heap := h.heap
    have hstart : b.carrier.place v.start = b.carrier.place w.start := hw.start
    have hroot : b.carrier.ref root = root := rfl
    rw [← complete_carried, ← complete_carried, hheap, hw.document.context, hw.target, hstart]
  unfold State.resume
  refine (located hw.document.source hcomplete).bind ?_
  rintro ⟨heap, context⟩ ⟨heap', context'⟩ ⟨hdone, hpair⟩
  rcases Prod.mk.inj hpair with ⟨hheap, hcontext⟩
  have htokens := hL.behind hw.document.tokens (rank_of_complete hdone)
  exact ⟨hheap, h.dependencies, ⟨hw.document.source, hw.document.directory, htokens, hcontext⟩,
    hrest, h.rootFile⟩

/-- Readers that are left with an object go on alike, or are at their ends alike. -/
theorem outcome_leave (hL : b.Allows L) (h : b.States L s t) (after after' : TokenStream)
    (root : Ref) :
    b.Agree (b.Next L) ((Turn.leave root).outcome env s after)
      ((Turn.leave root).outcome env t after') := by
  have hwaiting := h.waiting
  unfold Turn.outcome
  cases hs : s.waiting with
  | nil =>
      rw [hs, List.forall₂_nil_left_iff] at hwaiting
      rw [hwaiting]
      exact .inr ⟨h.heap, rfl, h.dependencies⟩
  | cons v rest =>
      rw [hs] at hwaiting
      rcases List.forall₂_cons_left_iff.1 hwaiting with ⟨w, rest', hw, hrest, ht⟩
      rw [ht]
      exact (h.resume hL hw hrest root).map fun _ _ hnext => .inl hnext

/-- What is left behind a turn: behind the token if it is taken, and also in the document that waits
    for the include it closes. -/
def Leaves (L : Left) (mode : Mode) (before before' after after' : TokenStream) : Turn → Prop
  | .take _ context => L context.mode after after'
  | .keep _ context => L context.mode before before'
  | .enter .. => L mode after after'
  | .leave _ => True

/-- Turns that look the same have outcomes that do. -/
theorem outcome (hL : b.Allows L) (h : b.States L s t) {after after' : TokenStream} {x y : Turn}
    (hxy : x.carried b.carrier = y.carried b.carrier)
    (hleft : Leaves L s.document.context.mode s.document.tokens t.document.tokens after after' x) :
    b.Agree (b.Next L) (x.outcome env s after) (y.outcome env t after') := by
  have hdoc := h.document
  -- Turns that look the same are of one kind, so the other combinations do not occur.
  cases x with
  | take heap context =>
      cases y with
      | take heap' context' =>
          rcases Turn.take.inj hxy with ⟨hheap, hcontext⟩
          exact .inl ⟨hheap, h.dependencies, ⟨hdoc.source, hdoc.directory, hleft, hcontext⟩,
            h.waiting, h.rootFile⟩
      | keep | enter | leave => cases hxy
  | keep heap context =>
      cases y with
      | keep heap' context' =>
          rcases Turn.keep.inj hxy with ⟨hheap, hcontext⟩
          exact .inl ⟨hheap, h.dependencies, ⟨hdoc.source, hdoc.directory, hleft, hcontext⟩,
            h.waiting, h.rootFile⟩
      | take | enter | leave => cases hxy
  | enter path start target =>
      cases y with
      | enter path' start' target' =>
          rcases Turn.enter.inj hxy with ⟨rfl, hstart, htarget⟩
          exact (h.enter hL hleft path hstart htarget).map fun _ _ hnext => .inl hnext
      | take | keep | leave => cases hxy
  | leave root =>
      cases y with
      | leave root' =>
          cases hxy
          exact outcome_leave hL h after after' root
      | take | keep | enter => cases hxy

/-- Turns at a word that stands at places that look the same. -/
theorem States.turn (env : Environment) (h : b.States L s t) (l : Lexeme) {p q : Position}
    (hplace : b.view p = b.view q) :
    b.carrier.result (Turn.carried b.carrier)
        (turn env.registry s.document.source s.heap s.document.context ⟨l, p⟩) =
      b.carrier.result (Turn.carried b.carrier)
        (turn env.registry t.document.source t.heap t.document.context ⟨l, q⟩) := by
  have hheap : b.carrier.heap s.heap = b.carrier.heap t.heap := h.heap
  have htoken : b.carrier.token ⟨l, p⟩ = b.carrier.token ⟨l, q⟩ := congrArg (Token.mk l) hplace
  rw [← turn_carried, ← turn_carried, hheap, h.document.context, h.document.source, htoken]

/-- Readers in front of the same word that is no `$` make the same turn of it, and go on alike if
    what is left behind the turn is related. -/
theorem step_of_word (hL : b.Allows L) (h : b.States L s t) {l : Lexeme} {p q : Position}
    {after after' : TokenStream} (hs : s.document.read s.document.tokens = .ok (⟨l, p⟩, after))
    (ht : t.document.read t.document.tokens = .ok (⟨l, q⟩, after')) (hl : l ≠ .punct '$')
    (hplace : b.view p = b.view q)
    (hleft : ∀ x,
      Reader.turn env.registry s.document.source s.heap s.document.context ⟨l, p⟩ = .ok x →
        Leaves L s.document.context.mode s.document.tokens t.document.tokens after after' x) :
    b.Agree (b.Next L) (step env s) (step env t) := by
  rw [step_eq, step_eq, hs, ht]
  simp only [bind, Except.bind, if_neg hl]
  exact (located h.document.source (h.turn env l hplace)).bind fun x y hxy =>
    outcome hL h hxy.2 (hleft x hxy.1)

/-- Readers in front of the same words make the same step. -/
theorem step_agree (hL : b.Allows L) (h : b.States L s t)
    (htokens : b.Streams s.document.tokens t.document.tokens) :
    b.Agree (b.Next L) (step env s) (step env t) := by
  have hdoc := h.document
  have hread := read hdoc.source htokens
  cases hs : s.document.read s.document.tokens with
  | error e =>
      rw [hs] at hread
      rcases hread.of_error with ⟨f, ht, hef⟩
      rw [step_eq, step_eq, hs, ht]
      exact hef
  | ok next =>
      rw [hs] at hread
      rcases next with ⟨⟨l, p⟩, after⟩
      rcases hread.of_ok with ⟨⟨⟨l', q⟩, after'⟩, ht, rfl, hplace, hafter⟩
      -- A dollar is expanded in both documents. Any other word gets a turn, and both turns are the
      -- same.
      by_cases hl : l = .punct '$'
      · rw [step_of_dollar hs hl, step_of_dollar ht hl]
        exact (hdoc.expand hL hplace hafter).map fun document document' hnext =>
          .inl ⟨h.heap, h.dependencies, hnext, h.waiting, h.rootFile⟩
      · refine step_of_word hL h hs ht hl hplace fun x _ => ?_
        cases x with
        | take | enter => exact hL.same hafter
        | keep => exact hL.same htokens
        | leave => trivial

/-- Readers that look the same make the same step. -/
theorem step_same (env : Environment) (h : b.States b.same s t) :
    b.Agree (b.Next b.same) (step env s) (step env t) :=
  step_agree b.allows_same h h.document.tokens

/-- Readers that look the same come to ends that do. -/
theorem run_agree (h : b.States b.same s t) : b.Agree b.Outputs (run env s) (run env t) := by
  -- The induction is on the run of the first reader; the second goes along step by step.
  induction s using run.induct env generalizing t with
  | case1 s e hs =>
      have hstep := step_same env h
      rw [hs] at hstep
      rcases hstep.of_error with ⟨f, ht, hef⟩
      rw [run_of_error hs, run_of_error ht]
      exact hef
  | case2 s out hs =>
      have hstep := step_same env h
      rw [hs] at hstep
      rcases hstep.of_ok with ⟨_, ht, ⟨⟩ | ⟨hout⟩⟩
      rw [run_of_last hs, run_of_last ht]
      exact hout
  | case3 s s' hs ih =>
      have hstep := step_same env h
      rw [hs] at hstep
      rcases hstep.of_ok with ⟨_, ht, ⟨hnext⟩ | ⟨⟩⟩
      rw [run_of_step hs, run_of_step ht]
      exact ih hnext

end

end Blur

end GraphText

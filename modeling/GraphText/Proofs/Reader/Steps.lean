import GraphText.Proofs.Reader.Move
import GraphText.Reader.Run

/-!
# Steps and runs

A run as a relation. `run` says what reading comes to; what holds on the way is
a statement about the states that `Steps` leads to, proved for the first one and
carried over one step. `Stepped` lists what a step can do, with a turn that stays
in its document left to `Move`.

A step is a function, so of two states of one run the later one is reached from
the earlier one. That is what makes "from here on" a statement about all later
states, and lets two includes of one run be put in order.

## Main definitions

* `Steps`: the states of a run.
* `Input`: what reading starts with, its first state and its result.
* `State.documents`, `State.included?`: what is being read, and what comes next.
* `Stepped`, `Turn.outcome`, `State.entered`: what a step does.
* `Environment.nodes`: what the runs in examples depend on.

## Theorems

* `stepped_of_step`: every step does one of these things.
* `run_of_steps`, `steps_of_run`: a run goes through its states and ends.
* `Steps.total`: the states of a run are in order.
* `Input.read_eq_ok_iff`: reading is running from the first state.
-/

namespace GraphText.Reader

/-- The second state comes up in the run from the first one. -/
def Steps (env : Environment) : State → State → Prop :=
  Relation.ReflTransGen fun s s' => step env s = .ok (.inl s')

/-- What reading starts with. -/
inductive Input where
  | text (text : String)
  | file (path : Path)

namespace Input

/-- The first state of reading. -/
def start (env : Environment) (heap : Heap) : Input → Except Error State
  | text t =>
    .ok
      { heap
        dependencies := []
        document := .ofText Location.stringSource env.options.textDirectory t }
  | file path =>
    match openFile env [] path with
    | .error cause => .error ⟨cause, none⟩
    | .ok (key, document) => .ok { heap, dependencies := [], document, rootFile := some key }

/-- What reading comes to. -/
def read (env : Environment) (heap : Heap) : Input → Except Error Output
  | text t => readText env heap t
  | file path => readPath env heap path

/-- What the document that reading starts with is called. -/
def source : Input → Path
  | text _ => Location.stringSource
  | file path => path

/-- The directory that the includes of this document start from. -/
def directory (env : Environment) : Input → Path
  | text _ => env.options.textDirectory
  | file path => path.directory

/-- Whether this is the text that is read first. -/
def HasText (env : Environment) : Input → String → Prop
  | text t, contents => contents = t
  | file path, contents => env.files.read path = .ok contents

/-- Reading is running from the first state. -/
theorem read_eq_ok_iff {env : Environment} {heap : Heap} {input : Input} {out : Output} :
    input.read env heap = .ok out ↔
      ∃ s, input.start env heap = .ok s ∧ run env s = .ok out := by
  cases input with
  | text t => simp [read, start, readText]
  | file path =>
      simp only [read, start, readPath]
      cases openFile env [] path with
      | error cause => simp
      | ok opened => simp

/-- What reading comes to from its first state. -/
theorem read_of_start {env : Environment} {heap : Heap} {input : Input} {s : State}
    (h : input.start env heap = .ok s) : input.read env heap = run env s := by
  cases input with
  | text t =>
      cases h
      rfl
  | file path =>
      simp only [start] at h
      simp only [read, readPath]
      cases hopen : openFile env [] path with
      | error cause => simp [hopen] at h
      | ok opened =>
          simp only [hopen, Except.ok.injEq] at h
          rw [← h]

/-- Reading that does not start has failed. -/
theorem read_of_refused {env : Environment} {heap : Heap} {input : Input} {e : Error}
    (h : input.start env heap = .error e) : input.read env heap = .error e := by
  cases input with
  | text t => cases h
  | file path =>
      simp only [start] at h
      simp only [read, readPath]
      cases hopen : openFile env [] path with
      | error cause => simpa [hopen] using h
      | ok opened => simp [hopen] at h

/-- The parts of a first state that do not depend on what is read. -/
theorem start_eq_ok {env : Environment} {heap : Heap} {input : Input} {s : State}
    (h : input.start env heap = .ok s) :
    s.heap = heap ∧ s.dependencies = [] ∧ s.waiting = [] ∧ s.document.context = {} ∧
      ∃ text, s.document.tokens = .ofText text := by
  cases input with
  | text t =>
      cases h
      exact ⟨rfl, rfl, rfl, rfl, t, rfl⟩
  | file path =>
      simp only [start, openFile] at h
      split at h
      · simp at h
      next hopen =>
        cases h
        repeat' split at hopen
        · simp at hopen
        · simp at hopen
        · simp at hopen
        next text _ =>
          cases hopen
          exact ⟨rfl, rfl, rfl, rfl, text, rfl⟩

/-- The document of a first state is the beginning of what is read. -/
theorem document_of_start {env : Environment} {heap : Heap} {input : Input} {s : State}
    (h : input.start env heap = .ok s) :
    ∃ text, input.HasText env text ∧
      s.document = .ofText input.source (input.directory env) text := by
  cases input with
  | text t =>
      cases h
      exact ⟨t, rfl, rfl⟩
  | file path =>
      simp only [start, openFile] at h
      split at h
      · simp at h
      next hopen =>
        cases h
        repeat' split at hopen
        · simp at hopen
        · simp at hopen
        · simp at hopen
        next text htext =>
          cases hopen
          exact ⟨text, htext, rfl⟩

end Input

/-- The documents that are being read, the innermost first. -/
def State.documents (s : State) : List Document :=
  s.document :: s.waiting.map Waiting.document

/-- The file that the next step opens, if it closes an include. -/
def State.included? (s : State) : Option Path :=
  match s.document.context.mode, s.document.tokens.next with
  | .includingPath _ path _, .ok (⟨.punct '>', _⟩, _) => some (s.document.directory.join ⟨path⟩)
  | _, _ => none

/-- What a step does. -/
inductive Stepped (env : Environment) (s : State) : State → Prop where
  | expand {token after document}
      (hread : s.document.read s.document.tokens = .ok (token, after))
      (hl : token.lexeme = .punct '$')
      (hexpand : s.document.expand env token.position after = .ok document) :
      Stepped env s { s with document }
  | move {token after heap context tokens}
      (hread : s.document.read s.document.tokens = .ok (token, after))
      (htokens : tokens = after ∨ tokens = s.document.tokens)
      (hmove : Move env.registry s.document.source s.heap s.document.context token heap context) :
      Stepped env s { s with heap, document := { s.document with tokens, context } }
  | enter {token after path start target s'}
      (hread : s.document.read s.document.tokens = .ok (token, after))
      (hmode : s.document.context.mode = .includingPath start path target)
      (henter : s.enter env after path start target = .ok s') : Stepped env s s'
  | leave {w rest root s'} (hmode : s.document.context.mode = .finished root)
      (hwaiting : s.waiting = w :: rest) (hresume : s.resume env w rest root = .ok s') :
      Stepped env s s'

/-- What a step comes to that makes this turn, with `after` left behind the token. -/
def Turn.outcome (env : Environment) (s : State) (after : TokenStream) :
    Turn → Except Error (State ⊕ Output)
  | take heap context =>
    .ok (.inl { s with heap, document := { s.document with tokens := after, context } })
  | keep heap context => .ok (.inl { s with heap, document := { s.document with context } })
  | enter path start target => (s.enter env after path start target).map .inl
  | leave root =>
    match s.waiting with
    | [] => .ok (.inr ⟨s.heap, root, s.dependencies⟩)
    | w :: rest => (s.resume env w rest root).map .inl

/-- A step whose token is a `$` expands a constant and does nothing else. -/
theorem step_of_dollar {env : Environment} {s : State} {token : Token} {after : TokenStream}
    (hread : s.document.read s.document.tokens = .ok (token, after))
    (hl : token.lexeme = .punct '$') :
    step env s = (s.document.expand env token.position after).map
      fun document => .inl { s with document } := by
  simp only [step, hread, bind, Except.bind, if_pos hl]
  cases s.document.expand env token.position after <;> rfl

theorem step_of_expand {env : Environment} {s : State} {token : Token} {after : TokenStream}
    {document : Document} (hread : s.document.read s.document.tokens = .ok (token, after))
    (hl : token.lexeme = .punct '$')
    (hexpand : s.document.expand env token.position after = .ok document) :
    step env s = .ok (.inl { s with document }) := by
  rw [step_of_dollar hread hl, hexpand]
  rfl

/-- A step whose token is not a `$` makes a turn. -/
theorem step_of_turn {env : Environment} {s : State} {token : Token} {after : TokenStream}
    {t : Turn} (hread : s.document.read s.document.tokens = .ok (token, after))
    (hl : token.lexeme ≠ .punct '$')
    (hturn : turn env.registry s.document.source s.heap s.document.context token = .ok t) :
    step env s = t.outcome env s after := by
  simp only [step, hread, hturn, bind, Except.bind, if_neg hl]
  cases t <;> rfl

/-- A step: the next token is a `$` and a constant is expanded, or a turn is made of it. -/
theorem step_eq (env : Environment) (s : State) :
    step env s = s.document.read s.document.tokens >>= fun next =>
      if next.1.lexeme = .punct '$' then
        (s.document.expand env next.1.position next.2).map fun document => .inl { s with document }
      else
        s.document.located
            (turn env.registry s.document.source s.heap s.document.context next.1) >>=
          fun t => t.outcome env s next.2 := by
  cases hread : s.document.read s.document.tokens with
  | error e => simp only [step, hread, bind, Except.bind]
  | ok next =>
      rcases next with ⟨token, after⟩
      by_cases hl : token.lexeme = .punct '$'
      · rw [step_of_dollar hread hl]
        simp only [bind, Except.bind, if_pos hl]
      · simp only [bind, Except.bind, if_neg hl]
        cases hturn : turn env.registry s.document.source s.heap s.document.context token with
        | error fault => simp only [step, hread, hturn, bind, Except.bind, if_neg hl]; rfl
        | ok t => rw [step_of_turn hread hl hturn]; rfl

/-- A step whose turn fails reports the fault in the document. -/
theorem step_of_fault {env : Environment} {s : State} {token : Token} {after : TokenStream}
    {fault : Fault} (hread : s.document.read s.document.tokens = .ok (token, after))
    (hl : token.lexeme ≠ .punct '$')
    (hturn : turn env.registry s.document.source s.heap s.document.context token = .error fault) :
    step env s = .error ⟨fault.1, some (s.document.locate fault.2)⟩ := by
  rw [step_eq, hread]
  simp only [bind, Except.bind, if_neg hl, hturn]
  rfl

/-- What a step looks at, and what it does about it. -/
theorem step_eq_ok {env : Environment} {s : State} {result : State ⊕ Output}
    (h : step env s = .ok result) :
    ∃ token after, s.document.read s.document.tokens = .ok (token, after) ∧
      ((token.lexeme = .punct '$' ∧ ∃ document,
          s.document.expand env token.position after = .ok document ∧
          result = .inl { s with document }) ∨
        (token.lexeme ≠ .punct '$' ∧ ∃ t,
          turn env.registry s.document.source s.heap s.document.context token = .ok t)) := by
  unfold step at h
  rcases bind_eq_ok h with ⟨⟨token, after⟩, hread, h⟩
  refine ⟨token, after, hread, ?_⟩
  dsimp only at h
  by_cases hl : token.lexeme = .punct '$'
  · rw [if_pos hl] at h
    rcases bind_eq_ok h with ⟨document, hexpand, h⟩
    cases h
    exact .inl ⟨hl, document, hexpand, rfl⟩
  · rw [if_neg hl] at h
    rcases bind_eq_ok h with ⟨t, hturn, -⟩
    exact .inr ⟨hl, t, located_ok hturn⟩

/-- Every step does one of these things. -/
theorem stepped_of_step {env : Environment} {s s' : State} (h : step env s = .ok (.inl s')) :
    Stepped env s s' := by
  rcases step_eq_ok h with ⟨token, after, hread, ⟨hl, document, hexpand, hs'⟩ | ⟨hl, t, hturn⟩⟩
  · cases hs'
    exact .expand hread hl hexpand
  · rw [step_of_turn hread hl hturn] at h
    have hcases := turn_cases hturn
    cases t with
    | take heap context =>
        cases h
        exact .move hread (.inl rfl) hcases
    | keep heap context =>
        cases h
        exact .move hread (.inr rfl) hcases
    | enter path start target =>
        rcases map_eq_ok h with ⟨_, henter, heq⟩
        cases heq
        exact .enter hread hcases henter
    | leave root =>
        simp only [Turn.outcome] at h
        split at h
        · cases h
        next hwaiting =>
          rcases map_eq_ok h with ⟨_, hresume, heq⟩
          cases heq
          exact .leave hcases hwaiting hresume

/-- A run ends behind the object of the document at the bottom. -/
theorem step_eq_inr {env : Environment} {s : State} {out : Output}
    (h : step env s = .ok (.inr out)) :
    s.waiting = [] ∧ s.document.context.mode = .finished out.root ∧ out.heap = s.heap ∧
      out.dependencies = s.dependencies := by
  rcases step_eq_ok h with ⟨token, after, hread, ⟨hl, document, hexpand, hs'⟩ | ⟨hl, t, hturn⟩⟩
  · cases hs'
  · rw [step_of_turn hread hl hturn] at h
    have hcases := turn_cases hturn
    cases t with
    | take heap context => cases h
    | keep heap context => cases h
    | enter path start target =>
        rcases map_eq_ok h with ⟨_, _, heq⟩
        cases heq
    | leave root =>
        simp only [Turn.outcome] at h
        split at h
        next hwaiting =>
          cases h
          exact ⟨hwaiting, hcases, rfl, rfl⟩
        next hwaiting =>
          rcases map_eq_ok h with ⟨_, _, heq⟩
          cases heq

/-- An expansion changes nothing but what is left of the document. -/
theorem expand_eq_ok {env : Environment} {doc doc' : Document} {origin : Position}
    {behind : TokenStream} (h : doc.expand env origin behind = .ok doc') :
    ∃ tokens, doc' = { doc with tokens } := by
  unfold Document.expand at h
  rcases bind_eq_ok h with ⟨⟨token, after⟩, -, h⟩
  have h := located_ok h
  split at h
  · split at h
    · simp at h
    · split at h
      · simp at h
      · cases h
        exact ⟨_, rfl⟩
  · simp [unexpected] at h

/-- The state in which a file has just been opened for an include, of which `after` is left. -/
def State.entered (s : State) (after : TokenStream) (path : String) (start : Position)
    (target : Target) (file : Path) (included : Document) : State :=
  { s with
    dependencies := s.dependencies ++ [⟨s.document.source, s.document.directory.join ⟨path⟩⟩]
    document := included
    waiting := { document := { s.document with tokens := after }, start, target, file } ::
      s.waiting }

/-- Entering an include opens its file, and lets the document wait. -/
theorem enter_eq_ok_iff {env : Environment} {s s' : State} {after : TokenStream} {path : String}
    {start : Position} {target : Target} :
    s.enter env after path start target = .ok s' ↔
      ∃ file included,
        openFile env s.openFiles (s.document.directory.join ⟨path⟩) = .ok (file, included) ∧
        s' = s.entered after path start target file included := by
  constructor
  · intro h
    rcases bind_eq_ok h with ⟨⟨file, included⟩, hopen, h⟩
    cases h
    exact ⟨file, included, report_ok (located_ok hopen), rfl⟩
  · rintro ⟨file, included, hopen, rfl⟩
    unfold State.enter
    simp only [hopen]
    rfl

/-- Leaving an include names its object and brings it to its target in the document that waits. -/
theorem resume_eq_ok {env : Environment} {s s' : State} {w : Waiting} {rest : List Waiting}
    {root : Ref} (h : s.resume env w rest root = .ok s') :
    ∃ heap context,
      complete env.registry s.heap w.document.context w.target root w.start =
        .ok (heap, context) ∧
      s' = { s with heap, document := { w.document with context }, waiting := rest } := by
  unfold State.resume at h
  rcases bind_eq_ok h with ⟨⟨heap, context⟩, hcomplete, h⟩
  cases h
  exact ⟨heap, context, located_ok hcomplete, rfl⟩

/-- A file is opened at its beginning. -/
theorem openFile_eq_ok {env : Environment} {isOpen : List Path} {path file : Path}
    {doc : Document} (h : openFile env isOpen path = .ok (file, doc)) :
    file = env.files.key path ∧ file.isIn isOpen = false ∧
      isOpen.length < env.options.maxIncludeDepth ∧
      ∃ text, env.files.read path = .ok text ∧ doc = .ofText path path.directory text := by
  have hroom := openFile_room h
  unfold openFile at h
  dsimp only at h
  split at h
  · simp at h
  next hcycle =>
    split at h
    · simp at h
    · split at h
      · simp at h
      next text hread =>
        cases h
        exact ⟨rfl, by simpa using hcycle, hroom, text, hread, rfl⟩

section

variable {env : Environment} {s s' : State}

/-- A run goes on as it does from any of its states. -/
theorem run_of_steps (h : Steps env s s') : run env s = run env s' := by
  induction h with
  | refl => rfl
  | tail _ hstep ih => rw [ih, run_of_step hstep]

/-- A run that comes to a result goes through states, the last of which ends it. -/
theorem steps_of_run {out : Output} (h : run env s = .ok out) :
    ∃ last, Steps env s last ∧ step env last = .ok (.inr out) := by
  fun_induction run env s with
  | case1 s e hstep => simp at h
  | case2 s output hstep =>
      cases h
      exact ⟨s, .refl, hstep⟩
  | case3 s s' hstep ih =>
      rcases ih h with ⟨last, hsteps, hlast⟩
      exact ⟨last, hsteps.head hstep, hlast⟩

theorem run_of_error {e : Error} (h : step env s = .error e) : run env s = .error e := by
  rw [run]
  split <;> simp_all

theorem run_of_last {out : Output} (h : step env s = .ok (.inr out)) : run env s = .ok out := by
  rw [run]
  split <;> simp_all

/-- Of two states of a run, one is reached from the other. -/
theorem Steps.total {a b : State} (ha : Steps env s a) (hb : Steps env s b) :
    Steps env a b ∨ Steps env b a := by
  refine Relation.ReflTransGen.total_of_right_unique ?_ ha hb
  intro x y z hy hz
  rw [hy] at hz
  cases hz
  rfl

/-- What every step keeps holds from its first state on. -/
theorem Steps.preserves {P : State → Prop}
    (hstep : ∀ a b, step env a = .ok (.inl b) → P a → P b) (h : Steps env s s') (hs : P s) :
    P s' := by
  induction h with
  | refl => exact hs
  | tail _ hlast ih => exact hstep _ _ hlast ih

/-- The state after this many steps, if the run is not over before. -/
def stateAfter? (env : Environment) (n : Nat) (s : State) : Option State :=
  match runFor env n s with
  | .ok (.inl s') => some s'
  | _ => none

theorem steps_of_stateAfter? {n : Nat} (h : stateAfter? env n s = some s') : Steps env s s' := by
  induction n generalizing s with
  | zero =>
      cases h
      exact .refl
  | succ n ih =>
      unfold stateAfter? runFor at h
      cases hstep : step env s with
      | error e => simp [hstep, bind, Except.bind] at h
      | ok result =>
          simp only [hstep, bind, Except.bind] at h
          cases result with
          | inl next => exact (ih h).head hstep
          | inr out => simp at h

theorem step_of_stateAfter? (h : stateAfter? env 1 s = some s') : step env s = .ok (.inl s') := by
  unfold stateAfter? runFor at h
  cases hstep : step env s with
  | error e => simp [hstep, bind, Except.bind] at h
  | ok result =>
      cases result with
      | inl next => simpa [hstep, bind, Except.bind, runFor] using h
      | inr out => simp [hstep, bind, Except.bind] at h

/-- The state after this many steps of reading, if reading is not over before. -/
def Input.stateAfter? (env : Environment) (heap : Heap) (n : Nat) (input : Input) :
    Option State :=
  match input.start env heap with
  | .ok start => Reader.stateAfter? env n start
  | .error _ => none

theorem Input.steps_of_stateAfter? {heap : Heap} {n : Nat} {input : Input}
    (h : input.stateAfter? env heap n = some s) :
    ∃ start, input.start env heap = .ok start ∧ Steps env start s := by
  unfold stateAfter? at h
  split at h
  next start hstart => exact ⟨start, hstart, Reader.steps_of_stateAfter? h⟩
  · simp at h

theorem run_of_runFor {n : Nat} {out : Output} (h : runFor env n s = .ok (.inr out)) :
    run env s = .ok out := by
  induction n generalizing s with
  | zero => cases h
  | succ n ih =>
      unfold runFor at h
      rcases bind_eq_ok h with ⟨result, hstep, h⟩
      cases result with
      | inl next => exact (run_of_step hstep).trans (ih h)
      | inr output =>
          cases h
          exact run_of_last hstep

/-- What reading comes to within this many steps. -/
def Input.outputWithin? (env : Environment) (heap : Heap) (n : Nat) (input : Input) :
    Option Output :=
  match input.start env heap with
  | .ok start =>
    match runFor env n start with
    | .ok (.inr out) => some out
    | _ => none
  | .error _ => none

theorem Input.read_of_outputWithin? {heap : Heap} {n : Nat} {input : Input} {out : Output}
    (h : input.outputWithin? env heap n = some out) : input.read env heap = .ok out := by
  unfold outputWithin? at h
  split at h
  next start hstart =>
    split at h
    next out' hrun =>
      cases h
      exact Input.read_eq_ok_iff.2 ⟨start, hstart, run_of_runFor hrun⟩
    · simp at h
  · simp at h

end

end GraphText.Reader

namespace GraphText

/-- Reading nodes from these files. -/
def Reader.Environment.nodes (read : Path → Except String String) : Reader.Environment :=
  { registry := .nodes, files := { canonical? := some, read }, options := {} }

end GraphText

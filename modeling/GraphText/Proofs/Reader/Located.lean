import GraphText.Proofs.Reader.Faults
import GraphText.Proofs.Reader.Include
import GraphText.Proofs.Reader.Termination
import GraphText.Proofs.Token.Places

/-!
# Where errors are

Every error of reading has a place, but for a file at the root that is refused.
The place is in the document that was being worked on: in the innermost one, or,
when the end of an include has been read, in the one that includes it. And it is
the place of something that was read there: the token that the reader looks at,
the name behind a `$`, or an earlier token whose position it has kept.

That an earlier token was one of this document is a fact about the run, not about
the state: a state holds a position and not where it is from. So the invariant
says of every position that is kept in a state that there is an earlier state in
which the same document was being read and the reader looked at a token there.
What a document keeps while it waits is said of it as it waits.

The other invariant is about the streams. Each of them belongs to the text that
its document was opened with, so what is read from it stands at a word of that
text, which is a `$` if it was read in an expansion.

## Main definitions

* `Input.Supplies`: the text of a document.
* `State.worksOn`: the document that a step works on.
* `Noted`: the tokens that have been looked at in a document.
* `Raised`: how an error comes about.

## Theorems

* `steps_supplied`: the streams of every state belong to their texts.
* `steps_notes`: every kept position is that of a token of its document.
* `error_located`: where an error of reading is.
-/

namespace GraphText.Reader

/-- Whether a document that is called so, and stands on these waiting ones, has this text. -/
def Input.Supplies (env : Environment) (input : Input) (below : List Waiting) (source : Path)
    (text : String) : Prop :=
  match below with
  | [] => source = input.source ∧ input.HasText env text
  | _ :: _ => env.files.read source = .ok text

/-- The streams that the reader reads from in a state. -/
inductive State.ReadsFrom (s : State) : TokenStream → Prop where
  | next : s.ReadsFrom s.document.tokens
  /-- the name of a constant stands behind a `$` -/
  | name {dollar behind} (hdollar : s.document.tokens.next = .ok (dollar, behind))
      (hl : dollar.lexeme = .punct '$') : s.ReadsFrom behind

/-- The document that the next step works on, and those that wait below it: the innermost one, or,
    behind the end of an include, the one that includes it. -/
def State.worksOn (s : State) : Document × List Waiting :=
  match s.document.context.mode, s.document.tokens.next, s.waiting with
  | .finished _, .ok (⟨.eof, _⟩, _), w :: rest => (w.document, rest)
  | _, _, _ => (s.document, s.waiting)

/-- In an earlier state, while the document on these waiting ones was the same, the reader looked at
    this token. -/
def Noted (env : Environment) (start s : State) (source : Path) (below : List Waiting)
    (token : Token) : Prop :=
  ∃ t after, Steps env start t ∧ Inside env below t s ∧ t.waiting = below ∧
    t.document.source = source ∧ t.document.tokens.next = .ok (token, after)

/-- The positions that are kept with a document that waits. -/
def Waiting.positions (w : Waiting) : List Position :=
  w.start :: (w.target.positions ++ w.document.context.positions)

/-- Every position that is kept is one of a token of its document, and that of an include is one of
    its `<`. -/
structure Notes (env : Environment) (start s : State) : Prop where
  own : ∀ p ∈ s.document.context.positions,
    ∃ token, Noted env start s s.document.source s.waiting token ∧ token.position = p
  angle : ∀ p, s.document.context.mode.angle? = some p →
    Noted env start s s.document.source s.waiting ⟨.punct '<', p⟩
  waiting : ∀ w below, w :: below <:+ s.waiting → ∀ p ∈ w.positions,
    ∃ token, Noted env start s w.document.source below token ∧ token.position = p

/-- Every stream belongs to the text of its document. -/
structure Supplied (env : Environment) (input : Input) (s : State) : Prop where
  own : ∃ text, input.Supplies env s.waiting s.document.source text ∧ s.document.tokens.IsOf text
  waiting : ∀ w below, w :: below <:+ s.waiting →
    ∃ text, input.Supplies env below w.document.source text ∧ w.document.tokens.IsOf text

/-- How an error of reading comes about. The step from `s` fails with it, and it is reported where
    the next token of `tokens` stands, which the reader read from in the state `t`, in the document
    that the step works on. What is reported about opening the file of an include is reported at its
    `<`. -/
structure Raised (env : Environment) (heap : Heap) (input : Input) (e : Error) (s t : State)
    (tokens : TokenStream) : Prop where
  run : ∃ start, input.start env heap = .ok start ∧ Steps env start t
  fails : step env s = .error e
  inside : Inside env s.worksOn.2 t s
  waiting : t.waiting = s.worksOn.2
  source : t.document.source = s.worksOn.1.source
  reads : t.ReadsFrom tokens
  location : e.location = some ⟨s.worksOn.1.source, tokens.place⟩
  angle : s.included? ≠ none → ∃ p after, tokens.next = .ok (⟨.punct '<', p⟩, after)

section

variable {env : Environment} {heap : Heap} {input : Input} {start s s' : State} {e : Error}

/-- What stands behind a `$` is expanded in what is left of the text. -/
theorem isOf_of_expand {doc doc' : Document} {text : String} {dollar : Token}
    {behind : TokenStream} (hdoc : doc.tokens.IsOf text)
    (hdollar : doc.tokens.next = .ok (dollar, behind)) (hl : dollar.lexeme = .punct '$')
    (h : doc.expand env dollar.position behind = .ok doc') : doc'.tokens.IsOf text := by
  rcases bind_eq_ok h with ⟨⟨token, after⟩, hread, h⟩
  have hafter : after.IsOf text := (hdoc.next hdollar).next (read_eq_ok hread)
  have h := located_ok h
  split at h
  · split at h
    · cases h
    · split at h
      · cases h
      · cases h
        exact hafter.splice _ (hdoc.hasWord_of_dollar hdollar hl)
  · cases h

/-- The streams of every state belong to their texts. -/
theorem steps_supplied (hstart : input.start env heap = .ok start) (hs : Steps env start s) :
    Supplied env input s := by
  refine hs.preserves (P := Supplied env input) ?_ ?_
  · rintro a b hstep h
    rcases h.own with ⟨text, htext, htokens⟩
    -- A stream is only read on and expanded. A file that is opened brings a text of its own, and
    -- one that is left gives back the stream that has waited.
    cases stepped_of_step hstep with
    | expand hread hl hexpand =>
        have htokens' := isOf_of_expand htokens (read_eq_ok hread) hl hexpand
        rcases expand_eq_ok hexpand with ⟨tokens, rfl⟩
        exact ⟨⟨text, htext, htokens'⟩, h.waiting⟩
    | move hread htaken hmove =>
        refine ⟨⟨text, htext, ?_⟩, h.waiting⟩
        rcases htaken with rfl | rfl
        · exact htokens.next (read_eq_ok hread)
        · exact htokens
    | enter hread hmode henter =>
        rcases enter_eq_ok_iff.1 henter with ⟨file, included, hopen, rfl⟩
        rcases openFile_eq_ok hopen with ⟨-, -, -, contents, hcontents, rfl⟩
        refine ⟨⟨contents, hcontents, TokenStream.isOf_ofText contents⟩, fun w below hw => ?_⟩
        rcases List.suffix_cons_iff.1 hw with heq | hw
        · cases heq
          exact ⟨text, htext, htokens.next (read_eq_ok hread)⟩
        · exact h.waiting w below hw
    | leave hmode hwaiting hresume =>
        rcases resume_eq_ok hresume with ⟨heap', context, -, rfl⟩
        refine ⟨h.waiting _ _ (hwaiting ▸ List.suffix_refl _), fun w below hw => ?_⟩
        exact h.waiting w below (hwaiting ▸ hw.trans (List.suffix_cons _ _))
  · rcases Input.start_eq_ok hstart with ⟨-, -, hwaiting, -, -⟩
    rcases Input.document_of_start hstart with ⟨text, htext, hdocument⟩
    refine ⟨⟨text, ?_, ?_⟩, fun w below hw => ?_⟩
    · rw [hwaiting, hdocument]
      exact ⟨rfl, htext⟩
    · rw [hdocument]
      exact TokenStream.isOf_ofText text
    · rw [hwaiting] at hw
      cases List.suffix_nil.1 hw

/-- What has been noted stays noted as long as the document is being read or waits. -/
theorem Noted.step {source : Path} {below : List Waiting} {token : Token}
    (h : Noted env start s source below token) (hstep : step env s = .ok (.inl s'))
    (hbelow : below <:+ s'.waiting) : Noted env start s' source below token := by
  rcases h with ⟨t, after, hsteps, hinside, ht⟩
  exact ⟨t, after, hsteps, hinside.tail ⟨hstep, hbelow⟩, ht⟩

/-- The token that is looked at is noted. -/
theorem noted_of_next {token : Token} {after : TokenStream} (hs : Steps env start s)
    (hnext : s.document.tokens.next = .ok (token, after)) :
    Noted env start s s.document.source s.waiting token :=
  ⟨s, after, hs, .refl, rfl, rfl, hnext⟩

/-- A step within a document, which keeps nothing but the position of its token and what has been
    kept before. -/
theorem Notes.within {token : Token} {after : TokenStream} (h : Notes env start s)
    (hs : Steps env start s) (hnext : s.document.tokens.next = .ok (token, after))
    (hstep : step env s = .ok (.inl s')) (hwaiting : s'.waiting = s.waiting)
    (hsource : s'.document.source = s.document.source)
    (hpositions : s'.document.context.positions ⊆
      token.position :: s.document.context.positions)
    (hangle : ∀ p, s'.document.context.mode.angle? = some p →
      token = ⟨.punct '<', p⟩ ∨ s.document.context.mode.angle? = some p) :
    Notes env start s' := by
  -- What the new token is known by was noted in this very step; the rest was noted before and is
  -- still below.
  have hnoted := noted_of_next hs hnext
  have hbelow : s.waiting <:+ s'.waiting := hwaiting ▸ List.suffix_refl _
  constructor
  · intro p hp
    rw [hsource, hwaiting]
    rcases List.mem_cons.1 (hpositions hp) with rfl | hp
    · exact ⟨token, hnoted.step hstep hbelow, rfl⟩
    · rcases h.own p hp with ⟨kept, hkept, heq⟩
      exact ⟨kept, hkept.step hstep hbelow, heq⟩
  · intro p hp
    rw [hsource, hwaiting]
    rcases hangle p hp with heq | hp
    · exact heq ▸ hnoted.step hstep hbelow
    · exact (h.angle p hp).step hstep hbelow
  · intro w below hw p hp
    rw [hwaiting] at hw
    rcases h.waiting w below hw p hp with ⟨kept, hkept, heq⟩
    have hsuffix : below <:+ s'.waiting := hwaiting ▸ (List.suffix_cons _ _).trans hw
    exact ⟨kept, hkept.step hstep hsuffix, heq⟩

/-- Entering an include lets its document wait with what it has kept. -/
theorem Notes.entered {after : TokenStream} {path : String} {p : Position} {target : Target}
    {file : Path} {included : Document} (h : Notes env start s)
    (hmode : s.document.context.mode = .includingPath p path target)
    (hfresh : included.context = {})
    (hstep : step env s = .ok (.inl (s.entered after path p target file included))) :
    Notes env start (s.entered after path p target file included) := by
  have hbelow : s.waiting <:+ (s.entered after path p target file included).waiting :=
    List.suffix_cons _ _
  have hcontext : (s.entered after path p target file included).document.context = {} := hfresh
  constructor
  · intro q hq
    rw [hcontext] at hq
    cases hq
  · intro q hq
    rw [hcontext] at hq
    cases hq
  · intro w below hw q hq
    rcases List.suffix_cons_iff.1 hw with heq | hw
    · cases heq
      -- The include's position and its target are kept with the mode.
      have hkept : q ∈ s.document.context.positions := by
        have hincluding : p :: target.positions ⊆ s.document.context.positions := by
          have hsub : s.document.context.mode.positions ⊆ s.document.context.positions :=
            List.subset_append_left _ _
          rwa [hmode] at hsub
        rcases List.mem_cons.1 hq with rfl | hq
        · exact hincluding List.mem_cons_self
        · rcases List.mem_append.1 hq with hq | hq
          · exact hincluding (List.mem_cons_of_mem _ hq)
          · exact hq
      rcases h.own q hkept with ⟨kept, hnoted, heq⟩
      exact ⟨kept, hnoted.step hstep hbelow, heq⟩
    · rcases h.waiting w below hw q hq with ⟨kept, hnoted, heq⟩
      exact ⟨kept, hnoted.step hstep (((List.suffix_cons _ _).trans hw).trans hbelow), heq⟩

/-- Bringing the root of an include to where it was wanted keeps to the positions that have waited.
    -/
theorem resume_staysAmong (reg : Registry) (heap : Heap) (w : Waiting) (root : Ref) :
    StaysAmong w.positions (fun r => r.2.positions)
      (complete reg heap w.document.context w.target root w.start) := by
  have htarget : w.target.positions ⊆ w.positions :=
    List.subset_cons_of_subset _ (List.subset_append_left _ _)
  have hbodies : w.document.context.bodies.flatMap Body.positions ⊆ w.positions :=
    List.subset_cons_of_subset _
      (List.Subset.trans bodies_subset_positions (List.subset_append_right _ _))
  exact complete_staysAmong List.mem_cons_self htarget hbodies

/-- The document that goes on behind an include keeps what it has kept while it waited. -/
theorem Notes.resumed {w : Waiting} {rest : List Waiting} {heap' : Heap} {context : Context}
    {root : Ref} (h : Notes env start s) (hwaiting : s.waiting = w :: rest)
    (hcomplete : complete env.registry s.heap w.document.context w.target root w.start =
      .ok (heap', context))
    (hstep : step env s = .ok
      (.inl { s with heap := heap', document := { w.document with context }, waiting := rest })) :
    Notes env start
      { s with heap := heap', document := { w.document with context }, waiting := rest } := by
  -- What the waiting document had kept was noted when it began to wait.
  have hself : w :: rest <:+ s.waiting := hwaiting ▸ List.suffix_refl _
  constructor
  · intro p hp
    have hkept := resume_staysAmong env.registry s.heap w root
    rw [hcomplete] at hkept
    rcases h.waiting w rest hself p (hkept hp) with ⟨token, hnoted, heq⟩
    exact ⟨token, hnoted.step hstep (List.suffix_refl _), heq⟩
  · intro p hp
    have hnone : context.mode.angle? = none := angle_of_complete hcomplete
    rw [show context.mode.angle? = some p from hp] at hnone
    cases hnone
  · intro v below hv p hp
    have hsuffix : v :: below <:+ s.waiting := hv.trans ((List.suffix_cons _ _).trans hself)
    rcases h.waiting v below hsuffix p hp with ⟨token, hnoted, heq⟩
    exact ⟨token, hnoted.step hstep ((List.suffix_cons _ _).trans hv), heq⟩

/-- A step keeps to what has been noted. -/
theorem Notes.step (h : Notes env start s) (hs : Steps env start s)
    (hstep : step env s = .ok (.inl s')) : Notes env start s' := by
  rcases step_eq_ok hstep with
    ⟨token, after, hread, ⟨hl, document, hexpand, heq⟩ | ⟨hl, t, hturn⟩⟩
  · cases heq
    rcases expand_eq_ok hexpand with ⟨tokens, rfl⟩
    exact h.within hs (read_eq_ok hread) hstep rfl rfl (List.subset_cons_self _ _)
      fun p hp => .inr hp
  have hkept : StaysAmong (token.position :: s.document.context.positions) Turn.positions
      (turn env.registry s.document.source s.heap s.document.context token) := turn_staysAmong
  rw [hturn] at hkept
  have hcases := turn_cases hturn
  have houtcome := hstep
  rw [step_of_turn hread hl hturn] at houtcome
  -- A turn keeps to the positions that it was given, whether it takes its token or not.
  cases t with
  | take heap' context =>
      cases houtcome
      exact h.within hs (read_eq_ok hread) hstep rfl rfl hkept fun p hp => angle_of_move hcases hp
  | keep heap' context =>
      cases houtcome
      exact h.within hs (read_eq_ok hread) hstep rfl rfl hkept fun p hp => angle_of_move hcases hp
  | enter path p target =>
      rcases map_eq_ok houtcome with ⟨_, henter, heq⟩
      cases heq
      rcases enter_eq_ok_iff.1 henter with ⟨file, included, hopen, rfl⟩
      rcases openFile_eq_ok hopen with ⟨-, -, -, text, -, rfl⟩
      exact h.entered hcases rfl hstep
  | leave root =>
      simp only [Turn.outcome] at houtcome
      split at houtcome
      · cases houtcome
      next hwaiting =>
        rcases map_eq_ok houtcome with ⟨_, hresume, heq⟩
        cases heq
        rcases resume_eq_ok hresume with ⟨heap', context, hcomplete, rfl⟩
        exact h.resumed hwaiting hcomplete hstep

/-- Every kept position is that of a token of its document. -/
theorem steps_notes (hstart : input.start env heap = .ok start) (hs : Steps env start s) :
    Notes env start s := by
  induction hs with
  | refl =>
      rcases Input.start_eq_ok hstart with ⟨-, -, hwaiting, hcontext, -⟩
      constructor
      · intro p hp
        rw [hcontext] at hp
        cases hp
      · intro p hp
        rw [hcontext] at hp
        cases hp
      · intro w below hw
        rw [hwaiting] at hw
        cases List.suffix_nil.1 hw
  | tail hsteps hlast ih => exact ih.step hsteps hlast

/-- A run that fails goes through states, and the step from the last one fails. -/
theorem steps_of_error (h : run env s = .error e) :
    ∃ last, Steps env s last ∧ step env last = .error e := by
  fun_induction run env s with
  | case1 s e' hstep =>
      cases h
      exact ⟨s, .refl, hstep⟩
  | case2 s output hstep => cases h
  | case3 s next hstep ih =>
      rcases ih h with ⟨last, hsteps, hlast⟩
      exact ⟨last, hsteps.head hstep, hlast⟩

/-- A step works on the innermost document, unless that is at its end. -/
theorem worksOn_of_inner
    (h : ∀ root token after, s.document.context.mode = .finished root →
      s.document.tokens.next = .ok (token, after) → token.lexeme ≠ .eof) :
    s.worksOn = (s.document, s.waiting) := by
  unfold State.worksOn
  split
  next root p after w rest hmode hnext hwaiting => exact absurd rfl (h root _ after hmode hnext)
  next => rfl

theorem worksOn_of_next {token : Token} {after : TokenStream}
    (hnext : s.document.tokens.next = .ok (token, after)) (hne : token.lexeme ≠ .eof) :
    s.worksOn = (s.document, s.waiting) := by
  refine worksOn_of_inner fun root token' after' _ hnext' => ?_
  rw [hnext] at hnext'
  cases hnext'
  exact hne

theorem worksOn_of_end {w : Waiting} {rest : List Waiting} {root : Ref} {token : Token}
    {after : TokenStream} (hmode : s.document.context.mode = .finished root)
    (hnext : s.document.tokens.next = .ok (token, after)) (hend : token.lexeme = .eof)
    (hwaiting : s.waiting = w :: rest) : s.worksOn = (w.document, rest) := by
  have htoken : token = ⟨.eof, token.position⟩ := by rw [← hend]
  rw [htoken] at hnext
  simp [State.worksOn, hmode, hnext, hwaiting]

/-- Only a `>` behind its path closes an include. -/
theorem included?_eq_none
    (h : ∀ p path target token after, s.document.context.mode = .includingPath p path target →
      s.document.tokens.next = .ok (token, after) → token.lexeme ≠ .punct '>') :
    s.included? = none := by
  unfold State.included?
  split
  next p path target q after hmode hnext => exact absurd rfl (h p path target _ after hmode hnext)
  next => rfl

theorem included?_of_next {token : Token} {after : TokenStream}
    (hnext : s.document.tokens.next = .ok (token, after)) (hne : token.lexeme ≠ .punct '>') :
    s.included? = none := by
  refine included?_eq_none fun _ _ _ token' after' _ hnext' => ?_
  rw [hnext] at hnext'
  cases hnext'
  exact hne

/-- What is reported at something that is read in the last state. -/
theorem raised_of_reads {tokens : TokenStream} {cause : Cause} {p : Position}
    (hstart : input.start env heap = .ok start) (hs : Steps env start s)
    (hstep : step env s = .error ⟨cause, some (s.document.locate p)⟩)
    (hworks : s.worksOn = (s.document, s.waiting)) (hreads : s.ReadsFrom tokens)
    (hplace : tokens.place = p) (hclosed : s.included? = none) :
    Raised env heap input ⟨cause, some (s.document.locate p)⟩ s s tokens where
  run := ⟨start, hstart, hs⟩
  fails := hstep
  inside := .refl
  waiting := by rw [hworks]
  source := by rw [hworks]
  reads := hreads
  location := by rw [hworks, hplace]; rfl
  angle h := absurd hclosed h

/-- What is reported at a token that was looked at before. -/
theorem raised_of_noted {doc : Document} {below : List Waiting} {cause : Cause} {token : Token}
    (hstart : input.start env heap = .ok start)
    (hstep : step env s = .error ⟨cause, some (doc.locate token.position)⟩)
    (hworks : s.worksOn = (doc, below))
    (hnoted : Noted env start s doc.source below token)
    (hangle : s.included? ≠ none → token.lexeme = .punct '<') :
    ∃ t tokens, Raised env heap input ⟨cause, some (doc.locate token.position)⟩ s t tokens := by
  rcases hnoted with ⟨t, after, hsteps, hinside, hwaiting, hsource, hnext⟩
  refine ⟨t, t.document.tokens, ⟨start, hstart, hsteps⟩, hstep, ?_, ?_, ?_, .next, ?_, ?_⟩
  · rwa [hworks]
  · rw [hworks, hwaiting]
  · rw [hworks, hsource]
  · rw [hworks, TokenStream.place_of_next hnext]
    rfl
  · intro h
    exact ⟨token.position, after, by rw [hnext, ← hangle h]⟩

/-- A fault of a turn is reported at its token or at one that has been kept. -/
theorem raised_of_turn {token : Token} {after : TokenStream} {cause : Cause} {p : Position}
    (hstart : input.start env heap = .ok start) (hs : Steps env start s)
    (hstep : step env s = .error ⟨cause, some (s.document.locate p)⟩)
    (hread : s.document.tokens.next = .ok (token, after))
    (hturn : turn env.registry s.document.source s.heap s.document.context token =
      .error (cause, p)) :
    ∃ t tokens, Raised env heap input ⟨cause, some (s.document.locate p)⟩ s t tokens := by
  have hkept : StaysAmong (token.position :: s.document.context.positions) Turn.positions
      (turn env.registry s.document.source s.heap s.document.context token) := turn_staysAmong
  rw [hturn] at hkept
  -- Neither the end of a document nor the end of an include is a fault.
  have hworks : s.worksOn = (s.document, s.waiting) := by
    refine worksOn_of_inner fun root token' after' hmode hnext heof => ?_
    rw [hread] at hnext
    cases hnext
    simp [turn, hmode, heof] at hturn
  have hclosed : s.included? = none := by
    refine included?_eq_none fun _ _ _ token' after' hmode hnext hl => ?_
    rw [hread] at hnext
    cases hnext
    simp [turn, hmode, hl] at hturn
  rcases List.mem_cons.1 hkept with rfl | hp
  · exact ⟨s, _, raised_of_reads hstart hs hstep hworks .next
      (TokenStream.place_of_next hread) hclosed⟩
  · rcases (steps_notes hstart hs).own p hp with ⟨kept, hnoted, rfl⟩
    exact raised_of_noted hstart hstep hworks hnoted fun h => absurd hclosed h

/-- What is wrong with the root of an include is reported at a token of the document around it. -/
theorem raised_of_resume {token : Token} {after : TokenStream} {w : Waiting} {rest : List Waiting}
    {root : Ref} {cause : Cause} {p : Position} (hstart : input.start env heap = .ok start)
    (hs : Steps env start s)
    (hstep : step env s = .error ⟨cause, some (w.document.locate p)⟩)
    (hread : s.document.tokens.next = .ok (token, after)) (hend : token.lexeme = .eof)
    (hmode : s.document.context.mode = .finished root) (hwaiting : s.waiting = w :: rest)
    (hcomplete : complete env.registry s.heap w.document.context w.target root w.start =
      .error (cause, p)) :
    ∃ t tokens, Raised env heap input ⟨cause, some (w.document.locate p)⟩ s t tokens := by
  have hkept := resume_staysAmong env.registry s.heap w root
  rw [hcomplete] at hkept
  rcases (steps_notes hstart hs).waiting w rest (hwaiting ▸ List.suffix_refl _) p hkept with
    ⟨kept, hnoted, rfl⟩
  have hclosed := included?_of_next hread (by simp [hend])
  exact raised_of_noted hstart hstep (worksOn_of_end hmode hread hend hwaiting) hnoted
    fun h => absurd hclosed h

/-- The step in which an error comes up, and what it is reported at. -/
theorem exists_raised (hstart : input.start env heap = .ok start) (hs : Steps env start s)
    (hstep : step env s = .error e) : ∃ t tokens, Raised env heap input e s t tokens := by
  -- One case for each way in which a step can fail.
  cases failed_of_step hstep with
  | token hflaw =>
      refine ⟨s, _, raised_of_reads hstart hs hstep ?_ .next (TokenStream.place_of_flaw hflaw) ?_⟩
      · refine worksOn_of_inner fun root token after _ hnext => ?_
        rw [hflaw] at hnext
        cases hnext
      · refine included?_eq_none fun _ _ _ token after _ hnext => ?_
        rw [hflaw] at hnext
        cases hnext
  | name hdollar hl hflaw =>
      exact ⟨s, _, raised_of_reads hstart hs hstep (worksOn_of_next hdollar (by simp [hl]))
        (.name hdollar hl) (TokenStream.place_of_flaw hflaw)
        (included?_of_next hdollar (by simp [hl]))⟩
  | constant hdollar hl hname =>
      exact ⟨s, _, raised_of_reads hstart hs hstep (worksOn_of_next hdollar (by simp [hl]))
        (.name hdollar hl) (TokenStream.place_of_next hname)
        (included?_of_next hdollar (by simp [hl]))⟩
  | turn hread hturn => exact raised_of_turn hstart hs hstep hread hturn
  | opening hread hmode hrefused =>
      have hworks : s.worksOn = (s.document, s.waiting) := by
        refine worksOn_of_inner fun root _ _ hmode' => ?_
        rw [hmode] at hmode'
        cases hmode'
      have hnoted := (steps_notes hstart hs).angle _ (by rw [hmode]; rfl)
      exact raised_of_noted hstart hstep hworks hnoted fun _ => rfl
  | resuming hread hend hmode hwaiting hcomplete =>
      exact raised_of_resume hstart hs hstep hread hend hmode hwaiting hcomplete

/-- What an error is reported at belongs to the text of the document that is worked on. -/
theorem Raised.supplied {t : State} {tokens : TokenStream}
    (h : Raised env heap input e s t tokens) :
    ∃ text, input.Supplies env s.worksOn.2 s.worksOn.1.source text ∧ tokens.IsOf text := by
  rcases h.run with ⟨start, hstart, hsteps⟩
  rcases (steps_supplied hstart hsteps).own with ⟨text, htext, htokens⟩
  rw [h.waiting, h.source] at htext
  refine ⟨text, htext, ?_⟩
  cases h.reads with
  | next => exact htokens
  | name hdollar hl => exact htokens.next hdollar

/-- Reading starts, or the file that it starts with is refused. -/
theorem start_eq_error_iff :
    (∃ e, input.start env heap = .error e) ↔ ∃ path, input = .file path ∧
      (env.options.maxIncludeDepth = 0 ∨ ∃ reason, env.files.read path = .error reason) := by
  cases input with
  | text t => simp [Input.start]
  | file path =>
      simp only [Input.start, openFile, Path.isIn, List.any_nil, List.length_nil, Nat.le_zero]
      by_cases hdepth : env.options.maxIncludeDepth = 0
      · simp [hdepth]
      · cases hread : env.files.read path with
        | error reason => simp [hdepth, hread]
        | ok text => simp [hdepth, hread]

theorem location_of_start (h : input.start env heap = .error e) : e.location = none := by
  cases input with
  | text t => cases h
  | file path =>
      simp only [Input.start] at h
      split at h
      · cases h
        rfl
      · cases h

end

/-- Every error of reading is located, except that a file at the root is refused: no file may be
    open, or it cannot be read. The location is in the document that the failing step works on, at
    what was read there: a token, the end, or a quoted string that cannot be read. If that was read
    in an expansion, the location is that of a `$` of the document's own text. An error from opening
    the file of an include is reported at the `<` of the include. -/
theorem error_located {env : Environment} {heap : Heap} {input : Input} {e : Error}
    (h : input.read env heap = .error e) :
    (e.location = none ↔ ∃ path, input = .file path ∧
      (env.options.maxIncludeDepth = 0 ∨ ∃ reason, env.files.read path = .error reason)) ∧
    (e.location ≠ none → ∃ s t tokens text, Raised env heap input e s t tokens ∧
      input.Supplies env s.worksOn.2 s.worksOn.1.source text ∧
      (tokens.isExpanding = true → HasWord text (.punct '$') tokens.place) ∧
      (tokens.isExpanding = false →
        (∃ token after, tokens.next = .ok (token, after) ∧
          HasWord text token.lexeme tokens.place) ∨
        (∃ flaw, tokens.next = .error (flaw, tokens.place)) ∧ HasFlaw text tokens.place)) := by
  -- Reading may be refused at its start, which is without a place, or fail in a step.
  cases hstart : input.start env heap with
  | error e' =>
      rw [Input.read_of_refused hstart] at h
      cases h
      have hnone := location_of_start hstart
      exact ⟨⟨fun _ => start_eq_error_iff.1 ⟨e, hstart⟩, fun _ => hnone⟩,
        fun hsome => absurd hnone hsome⟩
  | ok start =>
      rw [Input.read_of_start hstart] at h
      rcases steps_of_error h with ⟨s, hs, hstep⟩
      rcases exists_raised hstart hs hstep with ⟨t, tokens, hraised⟩
      have hsome : e.location ≠ none := by
        rw [hraised.location]
        exact Option.some_ne_none _
      refine ⟨⟨fun hnone => absurd hnone hsome, fun hrefused => ?_⟩, fun _ => ?_⟩
      · rcases start_eq_error_iff.2 hrefused with ⟨e', hstart'⟩
        rw [hstart] at hstart'
        cases hstart'
      · rcases hraised.supplied with ⟨text, htext, htokens⟩
        exact ⟨s, t, tokens, text, hraised, htext, htokens.place_of_isExpanding,
          htokens.place_of_not_isExpanding⟩

/-- A file in which a constant stands for a type that there is not. -/
def Environment.misnaming : Environment :=
  .nodes fun _ => .ok "Node \x7b [X: \"Nope\"], next: $X \x7b\x7d \x7d"

/-- The unknown type is reported in the included file, at the `$` of the constant. -/
theorem error_located_misnaming :
    (Input.text "Node \x7b next: <\"a\"> \x7d").read .misnaming .empty =
        .error ⟨.unknownType "Nope", some ⟨⟨"./a"⟩, ⟨1, 27⟩⟩⟩ ∧
      ∃ s t tokens text,
        Raised .misnaming .empty (.text "Node \x7b next: <\"a\"> \x7d")
          ⟨.unknownType "Nope", some ⟨⟨"./a"⟩, ⟨1, 27⟩⟩⟩ s t tokens ∧
        Input.Supplies .misnaming (.text "Node \x7b next: <\"a\"> \x7d") s.worksOn.2
          s.worksOn.1.source text ∧ tokens.place = ⟨1, 27⟩ := by
  have hanswer :
      ((Input.text "Node \x7b next: <\"a\"> \x7d").answerWithin? .misnaming .empty 40).any
      (fun answer => match answer with
        | .error e => e = ⟨.unknownType "Nope", some ⟨⟨"./a"⟩, ⟨1, 27⟩⟩⟩
        | .ok _ => false) = true := by
    decide +kernel
  rcases (Option.any_eq_true _ _).1 hanswer with ⟨answer, hanswer, hfails⟩
  cases answer with
  | ok out => cases hfails
  | error e =>
      cases of_decide_eq_true hfails
      have hread := Input.read_of_answerWithin? hanswer
      rcases (error_located hread).2 (Option.some_ne_none _) with
        ⟨s, t, tokens, text, hraised, htext, -, -⟩
      refine ⟨hread, s, t, tokens, text, hraised, htext, ?_⟩
      -- There is only one place that the error can have been raised at.
      have hlocation := hraised.location
      rw [Option.some.injEq, Location.mk.injEq] at hlocation
      exact hlocation.2.symm

end GraphText.Reader

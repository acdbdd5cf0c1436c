import GraphText.Proofs.Reader.Known
import GraphText.Proofs.Reader.Written
import GraphText.Proofs.Token.Marks

/-!
# Reading word by word

What a phrase is read as is told backwards. The last thing known about a reader
is whether it comes to a result from where it stands behind the phrase, and each
word in front of that leads to a state with the same answer, or else to an error
and to the answer that there is no result. So the lemmas here are about
`accepts`, and about one word each: a word that is taken, a word that is only
looked at, and a word at which the reader fails.

That all steps lead to sound and typed states with names for what is known is
part of `Ready`, which every word hands on.

## Main definitions

* `accepts`: whether a reader comes to a result.
* `Ready`: a reader in front of some words of a text, with what it knows.

## Theorems

* `Ready.take`, `Ready.keep`, `Ready.fail`: the ways of a word.
* `Ready.separator`: between two items there has to be a comma, and behind the last there may.
* `exists_storeField`, `exists_deliver`, `exists_complete`: values and objects that will do come to
  where they belong.
-/

namespace GraphText.Reader

/-- Whether reading comes to a result from here on. -/
def accepts (env : Environment) (heap : Heap) (c : Context) (d : Cursor) : Bool :=
  (run env (.inText env heap c d.rest d.position)).isOk

/-- The reader stands before these words of a text, and knows objects of these types by name. -/
structure Ready (env : Environment) (base : Nat) (known : Scopes) (heap : Heap) (c : Context)
    (d : Cursor) (ls : List Lexeme) : Prop where
  valid : env.registry.IsValid
  declared : env.registry.IsDeclared
  sound : (State.inText env heap c d.rest d.position).Sound base
  typed : (State.inText env heap c d.rest d.position).Typed env.registry base
  names : c.scopes.Like (heap.HasType env.registry) known
  words : ∃ tokens, d.tokens = .ok tokens ∧ tokens.map Token.lexeme = ls

/-- The bodies with a field read in the innermost one. -/
def marked : List Body → List Body
  | [] => []
  | body :: outer => { body with seenField := true } :: outer

namespace Target

/-- What an object of this target is read for. -/
def role : Target → Role
  | root => .value none
  | template => .template
  | field f _ | element f _ _ _ => .value f.kind.required

/-- The bodies behind an object of this target. -/
def bodies (bodies : List Body) : Target → List Body
  | field _ _ => marked bodies
  | _ => bodies

/-- The mode behind an object of this target. -/
def mode (r : Ref) : Target → Mode
  | root => .finished r
  | template => .templateEnd
  | field _ _ => .itemEnd
  | element f start _ before => .elementEnd f start (before ++ [r])

end Target

section

variable {env : Environment} {base : Nat} {known known' : Scopes} {heap heap' : Heap} {c : Context}
  {scopes : Scopes} {bodies : List Body} {mode mode' : Mode} {target : Target} {r n : Ref}
  {d : Cursor} {l : Lexeme} {ls : List Lexeme} {ok : Bool} {field : FieldSpec} {spec : ObjectSpec}

/-- The next of some words, or the end behind the last one. -/
theorem read_of_words (env : Environment) (heap : Heap) (c : Context)
    (hwords : ∃ tokens, d.tokens = .ok tokens ∧ tokens.map Token.lexeme = ls) :
    ∃ token d', (State.inText env heap c d.rest d.position).document.read
        (State.inText env heap c d.rest d.position).document.tokens =
          .ok (token, { base := d' }) ∧ token.lexeme = ls.headD .eof ∧
      ∃ tokens, d'.tokens = .ok tokens ∧ tokens.map Token.lexeme = ls.tail := by
  rcases hwords with ⟨tokens, htokens, rfl⟩
  have hnext : ∃ token d', d.next = .ok (token, d') ∧
      token.lexeme = (tokens.map Token.lexeme).headD .eof ∧
      ∃ tokens', d'.tokens = .ok tokens' ∧
        tokens'.map Token.lexeme = (tokens.map Token.lexeme).tail := by
    -- Behind the last word the end may be read again and again.
    cases tokens with
    | nil =>
        rcases Cursor.tokens_eq_ok_nil htokens with ⟨token, d', hnext, heof⟩
        exact ⟨token, d', hnext, heof, [], Cursor.tokens_of_eof hnext heof, rfl⟩
    | cons token tokens =>
        rcases Cursor.tokens_eq_ok_cons htokens with ⟨d', hnext, -, hrest⟩
        exact ⟨token, d', hnext, rfl, tokens, hrest, rfl⟩
  rcases hnext with ⟨token, d', hnext, hrest⟩
  refine ⟨token, d', ?_, hrest⟩
  unfold Document.read TokenStream.next State.inText
  rw [TokenStream.nextFrom]
  simp only [hnext]
  rfl

/-- The next word, if it expands no constant. -/
theorem Ready.read (h : Ready env base known heap c d ls) (hl : ls.head? ≠ some (.punct '$')) :
    ∃ token d', (State.inText env heap c d.rest d.position).document.read
        (State.inText env heap c d.rest d.position).document.tokens =
          .ok (token, { base := d' }) ∧ token.lexeme = ls.headD .eof ∧
      token.lexeme ≠ .punct '$' ∧
      ∃ tokens, d'.tokens = .ok tokens ∧ tokens.map Token.lexeme = ls.tail := by
  rcases read_of_words env heap c h.words with ⟨token, d', hread, hlexeme, hrest⟩
  refine ⟨token, d', hread, hlexeme, ?_, hrest⟩
  rw [hlexeme]
  cases ls with
  | nil => nofun
  | cons l ls => exact fun heq => hl (congrArg some heq)

/-- A step that leads on in the text. Whether reading comes to a result does not change by it. -/
theorem Ready.after (h : Ready env base known heap c d ls) {d' : Cursor} {c' : Context}
    {ls' : List Lexeme}
    (hstep : step env (.inText env heap c d.rest d.position) =
      .ok (.inl (.inText env heap' c' d'.rest d'.position)))
    (hnames : c'.scopes.Like (heap'.HasType env.registry) known')
    (hwords : ∃ tokens, d'.tokens = .ok tokens ∧ tokens.map Token.lexeme = ls')
    (haccepts : Ready env base known' heap' c' d' ls' → accepts env heap' c' d' = ok) :
    accepts env heap c d = ok := by
  rw [accepts, run_of_step hstep]
  exact haccepts ⟨h.valid, h.declared, (step_sound h.sound hstep).1,
    step_typed h.valid h.sound h.typed hstep, hnames, hwords⟩

/-- A word that is taken. -/
theorem Ready.take (h : Ready env base known heap c d (l :: ls)) (known' : Scopes)
    (hl : l ≠ .punct '$')
    (hnext : ∀ q, ∃ heap' c',
      turn env.registry Location.stringSource heap c ⟨l, q⟩ = .ok (.take heap' c') ∧
        c'.scopes.Like (heap'.HasType env.registry) known' ∧
        ∀ d', Ready env base known' heap' c' d' ls → accepts env heap' c' d' = ok) :
    accepts env heap c d = ok := by
  rcases h.read (fun heq => hl (Option.some.inj heq)) with
    ⟨⟨lexeme, q⟩, d', hread, rfl, hdollar, hwords⟩
  rcases hnext q with ⟨heap', c', hturn, hnames, haccepts⟩
  exact h.after (step_of_turn hread hdollar hturn) hnames hwords (haccepts d')

/-- A word, or the end, that is kept. -/
theorem Ready.keep (h : Ready env base known heap c d ls) (known' : Scopes)
    (hl : ls.head? ≠ some (.punct '$'))
    (hnext : ∀ token : Token, token.lexeme = ls.headD .eof → ∃ heap' c',
      turn env.registry Location.stringSource heap c token = .ok (.keep heap' c') ∧
        c'.scopes.Like (heap'.HasType env.registry) known' ∧
        (Ready env base known' heap' c' d ls → accepts env heap' c' d = ok)) :
    accepts env heap c d = ok := by
  rcases h.read hl with ⟨token, d', hread, hlexeme, hdollar, -⟩
  rcases hnext token hlexeme with ⟨heap', c', hturn, hnames, haccepts⟩
  -- The cursor stays where it was, whatever was read to look at the word.
  exact h.after (step_of_turn hread hdollar hturn) hnames h.words haccepts

/-- A word, or the end, at which the reader fails. -/
theorem Ready.fail (h : Ready env base known heap c d ls)
    (hl : ls.head? ≠ some (.punct '$'))
    (hturn : ∀ token : Token, token.lexeme = ls.headD .eof →
      ∃ e, turn env.registry Location.stringSource heap c token = .error e) :
    accepts env heap c d = false := by
  rcases h.read hl with ⟨token, d', hread, hlexeme, hdollar, -⟩
  rcases hturn token hlexeme with ⟨e, hturn⟩
  have hfault : turn env.registry (State.inText env heap c d.rest d.position).document.source
      (State.inText env heap c d.rest d.position).heap
      (State.inText env heap c d.rest d.position).document.context token = .error e := hturn
  have hstep : ∃ e, step env (.inText env heap c d.rest d.position) = .error e := by
    simp only [step, hread, hfault, bind, Except.bind, if_neg hdollar]
    exact ⟨_, rfl⟩
  rcases hstep with ⟨e, hstep⟩
  rw [accepts, run_of_error hstep]
  rfl

/-- A word that is taken, and leads to another mode. -/
theorem Ready.go (h : Ready env base known heap ⟨scopes, bodies, mode⟩ d (l :: ls))
    (hl : l ≠ .punct '$')
    (hnext : ∀ q, ∃ mode', turn env.registry Location.stringSource heap ⟨scopes, bodies, mode⟩
        ⟨l, q⟩ = .ok (.take heap ⟨scopes, bodies, mode'⟩) ∧
      ∀ d', Ready env base known heap ⟨scopes, bodies, mode'⟩ d' ls →
        accepts env heap ⟨scopes, bodies, mode'⟩ d' = ok) :
    accepts env heap ⟨scopes, bodies, mode⟩ d = ok := by
  refine h.take known hl fun q => ?_
  rcases hnext q with ⟨mode', hturn, haccepts⟩
  exact ⟨heap, ⟨scopes, bodies, mode'⟩, hturn, h.names, haccepts⟩

/-- Between two items, or behind the last one: the comma that may be missing at the end only. -/
theorem Ready.separator {close : Char} {comma isLast : Bool}
    {rest behind : List Lexeme} (hclose : close = ']' ∨ close = '\x7d')
    (hturn : ∀ token, turn env.registry Location.stringSource heap ⟨scopes, bodies, mode⟩ token =
      takeSeparator heap ⟨scopes, bodies, mode⟩ close mode' token)
    (hlast : if isLast then rest = .punct close :: behind else ∃ l ls, rest = l :: ls ∧ l.Opens)
    (h : Ready env base known heap ⟨scopes, bodies, mode⟩ d
      ((if comma then [.punct ','] else []) ++ rest))
    (hnext : ∀ d', Ready env base known heap ⟨scopes, bodies, mode'⟩ d' rest →
      accepts env heap ⟨scopes, bodies, mode'⟩ d' = ok) :
    accepts env heap ⟨scopes, bodies, mode⟩ d = (Commas.between.allow comma isLast && ok) := by
  cases comma with
  | true =>
      refine h.go (by decide) fun q => ⟨mode', ?_, hnext⟩
      rw [hturn]
      rfl
  | false =>
      cases isLast with
      | true =>
          have hrest : rest = .punct close :: behind := hlast
          subst hrest
          have hdollar : (Lexeme.punct close :: behind).head? ≠ some (.punct '$') := by
            rcases hclose with rfl | rfl <;> simp
          refine h.keep known hdollar fun token htoken => ⟨heap, ⟨scopes, bodies, mode'⟩, ?_,
            h.names, hnext d⟩
          have hcomma : token.lexeme ≠ .punct ',' := by
            rw [htoken]
            rcases hclose with rfl | rfl <;> simp
          have hclosed : token.lexeme = .punct close := htoken
          rw [hturn, takeSeparator, if_neg hcomma, if_pos hclosed]
          rfl
      | false =>
          -- What begins an item is neither a comma nor what closes the row.
          have hrest : ∃ l ls, rest = l :: ls ∧ l.Opens := by simpa using hlast
          rcases hrest with ⟨l, ls, rfl, hopens⟩
          refine h.fail (fun heq => ?_) fun token htoken => ?_
          · have := hopens '$' (Option.some.inj heq)
            contradiction
          · have hlexeme : token.lexeme = l := htoken
            have hcomma : token.lexeme ≠ .punct ',' := by
              rw [hlexeme]
              intro heq
              have := hopens ',' heq
              contradiction
            have hne : token.lexeme ≠ .punct close := by
              rw [hlexeme]
              intro heq
              have := hopens close heq
              rcases hclose with rfl | rfl <;> contradiction
            rw [hturn, takeSeparator, if_neg hcomma, if_neg hne]
            exact ⟨_, rfl⟩

/-- What can be stored comes to the innermost body. -/
theorem exists_storeField {vs : List Value} (heap : Heap) (c : Context) (start : Position)
    (hstore : (field.kind.store? field.name vs).isOk = true) :
    ∃ heap', storeField heap c field start vs =
        .ok (heap', ⟨c.scopes, marked c.bodies, .itemEnd⟩) ∧ heap.KeepsHeads heap' := by
  rcases c with ⟨scopes, bodies, mode⟩
  cases bodies with
  | nil => exact ⟨heap, rfl, .refl heap⟩
  | cons body outer =>
      rcases hcontent : field.kind.store? field.name vs with e | content
      · rw [hcontent] at hstore
        cases hstore
      · have hheap : ∃ heap', heap.store body.object field vs = .ok heap' := by
          rw [Heap.store, Instance.store, hcontent]
          exact ⟨_, rfl⟩
        rcases hheap with ⟨heap', hheap⟩
        exact ⟨heap', storeField_of_store rfl hheap, Heap.keepsHeads_of_store hheap⟩

/-- An object that will do passes the check of its field. -/
theorem checkObject_of_accepts {reg : Registry}
    (hspec : reg.find? (heap.get r).typeName = some spec)
    (haccepts : (Role.value field.kind.required).accepts reg spec = true) (p : Position) :
    checkObject reg heap field r p = .ok () := by
  have hname : spec.typeName = (heap.get r).typeName := by
    simpa using List.find?_some hspec
  unfold checkObject
  cases hrequired : field.kind.required with
  | none => rfl
  | some required =>
      rw [hrequired] at haccepts
      have hderived : reg.isDerivedFrom (heap.get r).typeName required = true := by
        rw [← hname]
        exact Registry.isDerivedFrom_of_reaches haccepts
      simp only [hderived, if_true]

/-- An object that will do comes to its target. -/
theorem exists_deliver {reg : Registry} (scopes : Scopes) (mode : Mode)
    (hfits : target.Fits reg heap bodies)
    (hspec : reg.find? (heap.get r).typeName = some spec)
    (haccepts : target.role.accepts reg spec = true) :
    ∃ heap', deliver reg heap ⟨scopes, bodies, mode⟩ target r =
        .ok (heap', ⟨scopes, target.bodies bodies, target.mode r⟩) ∧ heap.KeepsHeads heap' := by
  cases target with
  | root | template => exact ⟨heap, rfl, .refl heap⟩
  | field f start =>
      rcases hfits with ⟨-, htype⟩
      have hstore : (f.kind.store? f.name [.object r]).isOk = true := by
        rcases f with ⟨name, kind, hidden⟩
        cases kind <;> first | rfl | cases htype
      rcases exists_storeField heap ⟨scopes, bodies, mode⟩ start hstore with
        ⟨heap', hstored, hkeeps⟩
      refine ⟨heap', ?_, hkeeps⟩
      unfold deliver
      simp only [checkObject_of_accepts hspec haccepts, bind, Except.bind]
      exact hstored
  | element f start first before =>
      refine ⟨heap, ?_, .refl heap⟩
      unfold deliver
      simp only [checkObject_of_accepts hspec haccepts, bind, Except.bind]
      rfl

/-- An object becomes known by its name, with its type. -/
theorem exists_declare {reg : Registry} {name : String} (bodies : List Body) (mode : Mode)
    (start : Position) (hdeclare : target.role.declare name n known = some known')
    (hname : (heap.get r).name = if name = "" then none else some name)
    (hnames : scopes.Like (heap.HasType reg) known) (hr : heap.HasType reg r n) :
    ∃ scopes', declare heap ⟨scopes, bodies, mode⟩ target r start =
        .ok ⟨scopes', bodies, mode⟩ ∧ scopes'.Like (heap.HasType reg) known' := by
  -- Without a name an object is known to nobody, and a template must have one.
  by_cases hempty : name = ""
  · rw [if_pos hempty] at hname
    cases target with
    | template => simp [Target.role, Role.declare, hempty] at hdeclare
    | _ =>
        have hknown : known = known' := by
          simpa [Target.role, Role.declare, hempty] using hdeclare
        subst hknown
        refine ⟨scopes, ?_, hnames⟩
        unfold declare
        rw [hname]
  · rw [if_neg hempty] at hname
    cases target with
    | template =>
        have hknown : known.defineTemplate name n = known' := by
          simpa [Target.role, Role.declare, hempty] using hdeclare
        subst hknown
        refine ⟨scopes.defineTemplate name r, ?_, hnames.defineTemplate hr name⟩
        unfold declare
        rw [hname]
    | _ =>
        have hknown : known.define name n = known' := by
          simpa [Target.role, Role.declare, hempty] using hdeclare
        subst hknown
        refine ⟨scopes.define name r, ?_, hnames.define hr name⟩
        unfold declare
        rw [hname]

/-- An object that is read becomes known and comes to its target. -/
theorem exists_complete {reg : Registry} {name : String} (mode : Mode) (start : Position)
    (hfits : target.Fits reg heap bodies)
    (hspec : reg.find? (heap.get r).typeName = some spec)
    (haccepts : target.role.accepts reg spec = true)
    (hdeclare : target.role.declare name n known = some known')
    (hname : (heap.get r).name = if name = "" then none else some name)
    (hnames : scopes.Like (heap.HasType reg) known) (hr : heap.HasType reg r n) :
    ∃ heap' scopes', complete reg heap ⟨scopes, bodies, mode⟩ target r start =
        .ok (heap', ⟨scopes', target.bodies bodies, target.mode r⟩) ∧ heap.KeepsHeads heap' ∧
      scopes'.Like (heap'.HasType reg) known' := by
  rcases exists_declare bodies mode start hdeclare hname hnames hr with
    ⟨scopes', hdeclared, hnames'⟩
  rcases exists_deliver scopes' mode hfits hspec haccepts with
    ⟨heap', hdelivered, hkeeps⟩
  refine ⟨heap', scopes', ?_, hkeeps, hnames'.keep hkeeps.types⟩
  unfold complete
  simp only [hdeclared, bind, Except.bind]
  exact hdelivered

/-- What has been made sure of about the target that a mode is about. -/
theorem Mode.Fits.target_fits {reg : Registry} (h : mode.Fits reg heap bodies)
    (htarget : mode.target? = some target) : target.Fits reg heap bodies := by
  cases mode with
  | typed | named =>
      cases htarget
      exact h.2
  | object | used | cloning | cloningFrom | cloned | including | includingPath =>
      exact h target htarget
  | _ => cases htarget

theorem Ready.mode_fits (h : Ready env base known heap c d ls) :
    c.mode.Fits env.registry heap c.bodies :=
  (h.typed.contexts c List.mem_cons_self).mode

end

end GraphText.Reader

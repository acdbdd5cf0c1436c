import GraphText.Proofs.Reader.Steps
import GraphText.Proofs.Token.Marks

/-!
# Layers are rescanning

The reader does not rescan. It reads from a stack of layers, puts a constant in
front of what is left when it meets a `$`, and leaves a layer only when it reads
behind it, so layers that have ended linger, empty ones too, and the name behind
a `$` may come from a layer below. Here it is seen that this is the same as
rescanning: what is left of the layers, one after the other, is a list of tokens,
and what the reader does to the layers replaces the leftmost `$` of this list.

A token is inside of as many constants as there are layers when it has been read,
the layers that have ended above it being gone by then and those that have ended
below it being still there. So the limit for the number of layers is one for the
depth of a token.

Looking at a token expands what stands before it and takes nothing, and looking
again shows the same token. What is taken does not depend on when it was looked
at.

## Main definitions

* `Document.peek`, `Document.next`: the next token behind what is expanded.
* `Call`, `Document.answers`: looking at tokens and taking them, in any order.
* `TokenStream.Shows`: the tokens that are left of the layers.

## Theorems

* `steps_of_peek`: the reader makes its turns with what `peek` shows.
* `run_of_peek_error`: it fails where `peek` fails.
* `TokenStream.next_of_shows`: the first of the tokens that are left.
* `exists_final`: rescanning comes to an end.
* `peek_of_shows`: looking at a token is rescanning up to it.
* `answers_rescanned`: the tokens of a document are those of rescanning it.
-/

namespace GraphText

namespace TokenStream

/-- The tokens that are left of a stream, the innermost layer first. A layer has the number of the
    layers below it, itself included, as the depth of its tokens. -/
inductive Shows : TokenStream → List Mark → Prop where
  | base {base ts} (h : base.tokens = .ok ts) :
      Shows ⟨base, []⟩ (ts.map fun t => { token := t })
  | layer {base e es ts ms d} (h : e.cursor.tokens = .ok ts) (horigin : e.origin = d.position)
      (hms : Shows ⟨base, es⟩ ms) :
      Shows ⟨base, e :: es⟩ (ts.map (fun t => ⟨t, some d, es.length + 1⟩) ++ ms)

variable {s : TokenStream} {m : Mark} {ms : List Mark}

/-- The first token that is left is the next one, and the others are left behind it. -/
theorem next_of_shows (h : s.Shows (m :: ms)) :
    ∃ after, s.next = .ok (m.shown, after) ∧ m.token.lexeme ≠ .eof ∧ after.Shows ms ∧
      after.depth = m.depth := by
  generalize hall : m :: ms = all at h
  induction h generalizing m ms with
  | @base base ts h =>
      cases ts with
      | nil => cases hall
      | cons t ts =>
          rcases Cursor.tokens_eq_ok_cons h with ⟨after, hnext, hmore, hafter⟩
          cases hall
          refine ⟨⟨after, []⟩, ?_, hmore, .base hafter, rfl⟩
          rw [next, nextFrom, hnext]
          rfl
  | @layer base e es ts below d h horigin hms ih =>
      cases ts with
      -- A layer that has ended is left on the way.
      | nil =>
          rcases Cursor.tokens_eq_ok_nil h with ⟨token, after, hnext, heof⟩
          rcases ih hall with ⟨rest, hrest, hmore, hshows, hdepth⟩
          refine ⟨rest, ?_, hmore, hshows, hdepth⟩
          rw [next, nextFrom, hnext]
          simp only [if_pos heof]
          exact hrest
      | cons t ts =>
          rcases Cursor.tokens_eq_ok_cons h with ⟨after, hnext, hmore, hafter⟩
          cases hall
          refine ⟨⟨base, ⟨after, e.origin⟩ :: es⟩, ?_, hmore, .layer hafter horigin hms, rfl⟩
          rw [next, nextFrom, hnext]
          simp only [if_neg hmore, horigin]
          rfl

/-- When nothing is left, the next token is the end, again and again. -/
theorem next_of_shows_nil (h : s.Shows []) :
    ∃ token after, s.next = .ok (token, after) ∧ token.lexeme = .eof ∧ after.Shows [] := by
  generalize hall : ([] : List Mark) = all at h
  induction h with
  | @base base ts h =>
      cases List.map_eq_nil_iff.1 hall.symm
      rcases Cursor.tokens_eq_ok_nil h with ⟨token, after, hnext, heof⟩
      refine ⟨token, ⟨after, []⟩, ?_, heof, .base (Cursor.tokens_of_eof hnext heof)⟩
      rw [next, nextFrom, hnext]
  | @layer base e es ts below d h horigin hms ih =>
      rcases List.append_eq_nil_iff.1 hall.symm with ⟨hts, hbelow⟩
      cases List.map_eq_nil_iff.1 hts
      rcases Cursor.tokens_eq_ok_nil h with ⟨token, after, hnext, heof⟩
      rcases ih hbelow.symm with ⟨last, rest, hrest, hlast, hshows⟩
      refine ⟨last, rest, ?_, hlast, hshows⟩
      rw [next, nextFrom, hnext]
      simp only [if_pos heof]
      exact hrest

end TokenStream

namespace Reader

/-- What is left of a document, as what gets smaller when a constant is expanded. -/
structure Unread (env : Environment) where
  layers : List Nat

instance (env : Environment) : WellFoundedRelation (Unread env) :=
  ⟨fun a b => Descends (· < ·) (env.options.maxSubstitutionDepth + 1) a.layers b.layers,
    InvImage.wf Unread.layers (Descends.wellFounded Nat.lt_wfRel.wf)⟩

namespace Document

/-- The next token that is no `$`, and the document with all that stands before it expanded. -/
def peek (env : Environment) (doc : Document) : Except Error (Token × Document) :=
  match _read : doc.read doc.tokens with
  | .error e => .error e
  | .ok (token, after) =>
    if _dollar : token.lexeme = .punct '$' then
      match _expand : doc.expand env token.position after with
      | .error e => .error e
      | .ok expanded => expanded.peek env
    else .ok (token, doc)
termination_by (⟨doc.tokens.remaining⟩ : Unread env)
decreasing_by exact expand_descends (read_shrinks _read (by simp [_dollar])) _expand

/-- The next token that is no `$`, and the document behind it. -/
def next (env : Environment) (doc : Document) : Except Error (Token × Document) := do
  let (_, doc) ← doc.peek env
  let (token, after) ← doc.read doc.tokens
  .ok (token, { doc with tokens := after })

end Document

/-- Looking at the next token, or taking it. -/
inductive Call where
  | peek
  | next
  deriving DecidableEq

/-- The tokens that are taken by some calls, one after the other. -/
def Document.answers (env : Environment) : Document → List Call → Except Error (List Token)
  | _, [] => .ok []
  | doc, .peek :: calls => do
    let (_, doc) ← doc.peek env
    doc.answers env calls
  | doc, .next :: calls => do
    let (token, doc) ← doc.next env
    let tokens ← doc.answers env calls
    .ok (token :: tokens)

section

variable {env : Environment} {s : State} {doc : Document} {token : Token} {after : TokenStream}
  {e : Error}

/-- What is taken is what was looked at. -/
theorem next_of_peek {first : Document} (h : first.peek env = .ok (token, doc))
    (hread : doc.read doc.tokens = .ok (token, after)) :
    first.next env = .ok (token, { doc with tokens := after }) := by
  simp only [Document.next, h, hread, bind, Except.bind]

/-- The reader goes on to the document that `peek` gives, and makes its next turn with the token
    that `peek` shows. -/
theorem steps_of_peek (h : s.document.peek env = .ok (token, doc)) :
    Steps env s { s with document := doc } ∧ doc.context = s.document.context ∧
      doc.source = s.document.source ∧ ∃ after, doc.read doc.tokens = .ok (token, after) ∧
        ∀ t, turn env.registry doc.source s.heap doc.context token = .ok t →
          step env { s with document := doc } = t.outcome env { s with document := doc } after := by
  generalize hdoc : s.document = first at h
  fun_induction Document.peek env first generalizing s with
  | case1 => cases h
  | case2 => cases h
  | case3 first token' after hread hdollar expanded hexpand ih =>
      subst hdoc
      have hstep := step_of_expand hread hdollar hexpand
      rcases expand_eq_ok hexpand with ⟨tokens, rfl⟩
      rcases ih (s := { s with document := { s.document with tokens } }) rfl h with ⟨hsteps, hrest⟩
      exact ⟨hsteps.head hstep, hrest⟩
  | case4 first token' after hread hdollar =>
      cases h
      subst hdoc
      exact ⟨.refl, rfl, rfl, after, hread, fun t ht => step_of_turn hread hdollar ht⟩

/-- The reader fails where `peek` fails. -/
theorem run_of_peek_error (h : s.document.peek env = .error e) : run env s = .error e := by
  generalize hdoc : s.document = first at h
  fun_induction Document.peek env first generalizing s with
  | case1 first e' hread =>
      cases h
      subst hdoc
      refine run_of_error ?_
      simp only [step, hread, bind, Except.bind]
  | case2 first token' after hread hdollar e' hexpand =>
      cases h
      subst hdoc
      refine run_of_error ?_
      rw [step_of_dollar hread hdollar, hexpand]
      rfl
  | case3 first token' after hread hdollar expanded hexpand ih =>
      subst hdoc
      have hstep := step_of_expand hread hdollar hexpand
      rw [run_of_step hstep]
      exact ih rfl h
  | case4 => cases h

end

section

variable {env : Environment} {doc : Document} {ms out : List Mark}

/-- The tokens that come up when the constants of a document are expanded. -/
abbrev Document.Rescans (env : Environment) (doc : Document) : List Mark → List Mark → Prop :=
  Mark.Rescans doc.context.scopes.constant? env.options.maxSubstitutionDepth

/-- Whether all constants of a document can be expanded in some tokens. -/
abbrev Document.IsExpandable (env : Environment) (doc : Document) (ms : List Mark) : Prop :=
  Mark.IsExpandable doc.context.scopes.constant? env.options.maxSubstitutionDepth ms

/-- What is read when these tokens are left, and what is left behind it: the first one, or the
    end. -/
inductive Sees : List Mark → Token → TokenStream → Prop where
  | first {m ms after} (hmore : m.token.lexeme ≠ .eof) (h : after.Shows ms) :
      Sees (m :: ms) m.shown after
  | last {token after} (heof : token.lexeme = .eof) (h : after.Shows []) : Sees [] token after

theorem read_of_shows {tokens : TokenStream} (doc : Document) (h : tokens.Shows ms) :
    ∃ token after, doc.read tokens = .ok (token, after) ∧ Sees ms token after := by
  unfold Document.read
  cases ms with
  | nil =>
      rcases TokenStream.next_of_shows_nil h with ⟨token, after, hnext, heof, hafter⟩
      refine ⟨token, after, ?_, .last heof hafter⟩
      rw [hnext]
      rfl
  | cons m ms =>
      rcases TokenStream.next_of_shows h with ⟨after, hnext, hmore, hafter, -⟩
      refine ⟨m.shown, after, ?_, .first hmore hafter⟩
      rw [hnext]
      rfl

/-- A `$` that can be replaced is expanded to the tokens that it is replaced by. -/
theorem expand_of_shows {dollar : Mark} {ms' : List Mark} {after : TokenStream}
    (hdollar : dollar.IsDollar) (hshows : after.Shows ms)
    (h : Mark.replace? doc.context.scopes.constant? env.options.maxSubstitutionDepth
      (dollar :: ms) = some ms') :
    ∃ tokens, doc.expand env dollar.source.position after = .ok { doc with tokens } ∧
      tokens.Shows ms' := by
  rcases Mark.replace?_dollar hdollar h with ⟨name, behind, new, rfl, hnew, rfl⟩
  rcases Mark.value?_eq_some hnew with ⟨word, value, ts, hword, hlimit, hvalue, hts, rfl⟩
  rcases TokenStream.next_of_shows hshows with ⟨rest, hnext, -, hrest, hdepth⟩
  refine ⟨rest.splice value dollar.source.position, ?_, ?_⟩
  -- The name may be of a layer below the `$`. The layers above it have ended and been left, so the
  -- limit sees those that the name is in, and that is its depth.
  · have hread : doc.read after = .ok (name.shown, rest) := by
      unfold Document.read
      rw [hnext]
      rfl
    have hlexeme : name.shown.lexeme = .name word := hword
    have hroom : ¬ env.options.maxSubstitutionDepth ≤ rest.depth := by omega
    unfold Document.expand
    simp only [hread, bind, Except.bind, hlexeme, hvalue, if_neg hroom]
    rfl
  · rw [← hdepth]
    exact .layer hts rfl hrest

/-- At a `$`, the reader replaces it. -/
theorem expand_of_read {token : Token} {after : TokenStream} (hshows : doc.tokens.Shows ms)
    (hexp : doc.IsExpandable env ms) (hread : doc.read doc.tokens = .ok (token, after))
    (hdollar : token.lexeme = .punct '$') :
    ∃ tokens ms', doc.expand env token.position after = .ok { doc with tokens } ∧
      doc.Rescans env ms ms' ∧ tokens.Shows ms' := by
  rcases read_of_shows doc hshows with ⟨token', after', hok, hsees⟩
  rw [hread] at hok
  cases hok
  cases hsees with
  | @first m ms _ _ hafter =>
      rcases hexp _ .refl ⟨m, List.mem_cons_self, hdollar⟩ with ⟨ms', hms'⟩
      rcases expand_of_shows hdollar hafter hms' with ⟨tokens, hexpand, htokens⟩
      exact ⟨tokens, ms', hexpand, .single hms', htokens⟩
  | last heof =>
      rw [hdollar] at heof
      cases heof

/-- Looking at the next token expands the constants before it. -/
theorem peek_of_shows (hshows : doc.tokens.Shows ms) (hexp : doc.IsExpandable env ms) :
    ∃ token tokens after ms', doc.peek env = .ok (token, { doc with tokens }) ∧
      token.lexeme ≠ .punct '$' ∧ doc.read tokens = .ok (token, after) ∧
      doc.Rescans env ms ms' ∧ tokens.Shows ms' ∧ Sees ms' token after := by
  fun_induction Document.peek env doc generalizing ms with
  -- Nothing fails, since all texts can be read and every `$` can be expanded.
  | case1 doc e hread =>
      rcases read_of_shows doc hshows with ⟨token, after, hok, -⟩
      rw [hread] at hok
      cases hok
  | case2 doc token after hread hdollar e hexpand =>
      rcases expand_of_read hshows hexp hread hdollar with ⟨tokens, ms', hok, -⟩
      rw [hexpand] at hok
      cases hok
  | case3 doc token after hread hdollar expanded hexpand ih =>
      rcases expand_of_read hshows hexp hread hdollar with ⟨tokens, ms', hok, hms', htokens⟩
      rw [hexpand] at hok
      cases hok
      rcases ih htokens (hexp.rescans hms') with
        ⟨shown, tokens', after', ms'', hpeek, hshown, hread', hms'', hrest⟩
      exact ⟨shown, tokens', after', ms'', hpeek, hshown, hread', hms'.trans hms'', hrest⟩
  | case4 doc token after hread hdollar =>
      rcases read_of_shows doc hshows with ⟨token', after', hok, hsees⟩
      rw [hread] at hok
      cases hok
      exact ⟨token, doc.tokens, after, ms, rfl, hdollar, hread, .refl, hshows, hsees⟩

/-- What is left of a document can be expanded to a list without a `$`. -/
theorem exists_final (doc : Document) {ms : List Mark} (hshows : doc.tokens.Shows ms)
    (hexp : doc.IsExpandable env ms) :
    ∃ out, doc.Rescans env ms out ∧ Mark.IsFinal out := by
  -- The induction is on what is left of the layers, as for the reader itself.
  have hwf : WellFounded (Descends (· < ·) (env.options.maxSubstitutionDepth + 1)) :=
    Descends.wellFounded Nat.lt_wfRel.wf
  generalize hleft : doc.tokens.remaining = left
  induction left using hwf.induction generalizing doc ms with
  | _ left ih =>
    subst hleft
    rcases read_of_shows doc hshows with ⟨token, after, hread, hsees⟩
    by_cases hdollar : token.lexeme = .punct '$'
    · rcases expand_of_read hshows hexp hread hdollar with ⟨tokens, ms', hexpand, hms', htokens⟩
      rcases ih _ (expand_descends (read_shrinks hread (by simp [hdollar])) hexpand)
        { doc with tokens } htokens (hexp.rescans hms') rfl with ⟨out, hout, hfinal⟩
      exact ⟨out, hms'.trans hout, hfinal⟩
    · cases hsees with
      | @first m ms _ hmore hafter =>
          rcases ih _ (descends_of_shrinks (read_shrinks hread hmore))
            { doc with tokens := after } hafter (hexp.of_cons hdollar) rfl with
            ⟨out, hout, hfinal⟩
          refine ⟨m :: out, hout.cons hdollar, fun m' hm' => ?_⟩
          rcases List.mem_cons.1 hm' with rfl | hm'
          · exact hdollar
          · exact hfinal m' hm'
      | last => exact ⟨[], .refl, fun m hm => nomatch hm⟩

/-- Looking at tokens and taking them gives the tokens of rescanning, and then the end. -/
theorem answers_of_shows (doc : Document) {ms out : List Mark} (calls : List Call)
    (hshows : doc.tokens.Shows ms) (hexp : doc.IsExpandable env ms)
    (hout : doc.Rescans env ms out) (hfinal : Mark.IsFinal out) :
    ∃ ends, doc.answers env calls =
        .ok ((out.map Mark.shown).take (calls.count .next) ++ ends) ∧
      ends.length = calls.count .next - out.length ∧ ∀ t ∈ ends, t.lexeme = .eof := by
  induction calls generalizing doc ms out with
  | nil => exact ⟨[], rfl, (Nat.zero_sub _).symm, fun t ht => nomatch ht⟩
  | cons call calls ih =>
      rcases peek_of_shows hshows hexp with
        ⟨token, tokens, after, ms', hpeek, htoken, hread, hms', htokens, hsees⟩
      have hexp' := hexp.rescans hms'
      have hout' : doc.Rescans env ms' out := Mark.Rescans.join hfinal hout hms'
      cases call with
      -- Looking at a token leaves what is rescanned on the way to the same list.
      | peek =>
          rcases ih { doc with tokens } htokens hexp' hout' hfinal with
            ⟨ends, hanswers, hends⟩
          refine ⟨ends, ?_, hends⟩
          simp only [Document.answers, hpeek, bind, Except.bind]
          exact hanswers
      | next =>
          have hnext := next_of_peek hpeek hread
          cases hsees with
          | @first m ms' _ hmore hafter =>
              rcases hout'.of_cons htoken with ⟨rest, rfl, hrest⟩
              rcases ih { doc with tokens := after } hafter (hexp'.of_cons htoken) hrest
                (fun m hm => hfinal m (List.mem_cons_of_mem _ hm)) with
                ⟨ends, hanswers, hlen, hends⟩
              refine ⟨ends, ?_, ?_, hends⟩
              · simp only [Document.answers, hnext, hanswers, bind, Except.bind]
                rw [List.count_cons_self, List.map_cons, List.take_succ_cons, List.cons_append]
              · rw [hlen, List.count_cons_self, List.length_cons]
                omega
          -- Without anything left, the list is at its end, and so is the document.
          | last heof hafter =>
              have hempty : Mark.IsFinal [] := fun m hm => nomatch hm
              cases Mark.Rescans.eq_of_final hempty hout'
              rcases ih { doc with tokens := after } hafter hexp' .refl hfinal with
                ⟨ends, hanswers, hlen, hends⟩
              refine ⟨token :: ends, ?_, ?_, ?_⟩
              · simp only [Document.answers, hnext, hanswers, bind, Except.bind]
                simp
              · rw [List.length_cons, hlen, List.count_cons_self]
                rfl
              · intro t ht
                rcases List.mem_cons.1 ht with rfl | ht
                · exact heof
                · exact hends t ht

/-- Reading a document, with its constants as they are, is rescanning it. The tokens of the document
    can be rescanned to a list without a `$`, and to no other; each of them is a token of the
    document or comes from a `$` of the document, and is shown at the place of this one. Taking the
    next token over and over gives this list and then the end, and looking at tokens in between
    makes no difference. -/
theorem answers_rescanned {text : String} {ts : List Token} (htext : doc.tokens = .ofText text)
    (hlex : (Cursor.ofText text).tokens = .ok ts)
    (hexp : doc.IsExpandable env (ts.map fun t => { token := t })) :
    ∃ out, (doc.Rescans env (ts.map fun t => { token := t }) out ∧ Mark.IsFinal out) ∧
      (∀ out', doc.Rescans env (ts.map fun t => { token := t }) out' → Mark.IsFinal out' →
        out' = out) ∧
      (∀ m ∈ out, m.IsSourced ts) ∧
      ∀ calls : List Call, ∃ ends, doc.answers env calls =
          .ok ((out.map Mark.shown).take (calls.count .next) ++ ends) ∧
        ends.length = calls.count .next - out.length ∧ ∀ t ∈ ends, t.lexeme = .eof := by
  have hshows : doc.tokens.Shows (ts.map fun t => { token := t }) := by
    rw [htext]
    exact .base hlex
  rcases exists_final doc hshows hexp with ⟨out, hout, hfinal⟩
  refine ⟨out, ⟨hout, hfinal⟩, fun out' hout' hfinal' => ?_, ?_, fun calls =>
    answers_of_shows doc calls hshows hexp hout hfinal⟩
  · exact Mark.Rescans.eq_of_final hfinal (Mark.Rescans.join hfinal' hout' hout)
  · refine hout.sourced fun m hm => ?_
    rcases List.mem_map.1 hm with ⟨t, ht, rfl⟩
    exact ⟨ht, fun horigin => absurd rfl horigin⟩

end

namespace Borrowing

/-- A text with a constant that ends with a `$`, whose name is taken from behind the constant. -/
def document : Document :=
  { Document.ofText Location.stringSource ⟨"."⟩ "$A x z" with
    context :=
      { scopes := (({} : Scopes).defineConstant "A" "y $").defineConstant "x" "" } }

def dollar : Token := ⟨.punct '$', ⟨1, 1⟩⟩

/-- The tokens of the text. -/
def tokens : List Token :=
  [dollar, ⟨.name "A", ⟨1, 2⟩⟩, ⟨.name "x", ⟨1, 4⟩⟩, ⟨.name "z", ⟨1, 6⟩⟩]

/-- The tokens with the first constant replaced. -/
def half : List Mark :=
  [⟨⟨.name "y", ⟨1, 1⟩⟩, some dollar, 1⟩, ⟨⟨.punct '$', ⟨1, 3⟩⟩, some dollar, 1⟩,
    ⟨⟨.name "x", ⟨1, 4⟩⟩, none, 0⟩, ⟨⟨.name "z", ⟨1, 6⟩⟩, none, 0⟩]

/-- The tokens with both constants replaced, the second of which is empty. -/
def full : List Mark :=
  [⟨⟨.name "y", ⟨1, 1⟩⟩, some dollar, 1⟩, ⟨⟨.name "z", ⟨1, 6⟩⟩, none, 0⟩]

theorem rescans_full :
    document.Rescans (.nodes fun _ => .error "") (tokens.map fun t => { token := t }) full := by
  refine .head (b := half) ?_ (.single ?_)
  · decide +kernel
  · decide +kernel

end Borrowing

/-- What comes from the constant stands where its `$` stands, and the rest where it stood. -/
theorem answers_rescanned_borrowing :
    ∃ last, Borrowing.document.answers (.nodes fun _ => .error "")
        [.peek, .next, .peek, .peek, .next, .next] =
          .ok [⟨.name "y", ⟨1, 1⟩⟩, ⟨.name "z", ⟨1, 6⟩⟩, last] ∧ last.lexeme = .eof := by
  have hlex : (Cursor.ofText "$A x z").tokens = .ok Borrowing.tokens :=
    eq_ok_of_toOption (by decide +kernel)
  have hrescans := Borrowing.rescans_full
  have hfinal : Mark.IsFinal Borrowing.full := by decide
  have htext : Borrowing.document.tokens = .ofText "$A x z" := rfl
  rcases answers_rescanned htext hlex (hrescans.isExpandable hfinal) with
    ⟨out, -, hunique, -, hanswers⟩
  rcases hanswers [.peek, .next, .peek, .peek, .next, .next] with ⟨ends, hok, hlen, hends⟩
  rw [← hunique Borrowing.full hrescans hfinal] at hok hlen
  rcases List.length_eq_one_iff.1 hlen with ⟨last, rfl⟩
  exact ⟨last, hok, hends last List.mem_cons_self⟩

end Reader

end GraphText

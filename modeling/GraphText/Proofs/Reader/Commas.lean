import GraphText.Proofs.Reader.Blurred
import GraphText.Proofs.Reader.Unknown

/-!
# Commas behind the last item

Two texts differ in nothing but a comma in front of a character that closes a
row. Their readers are run side by side. Up to the comma they read the same
words, and what they do has nothing to do with what comes later. There one of
them finds the comma and the other one what closes the row. If an item has just
ended, the first takes the comma and the second takes nothing, and both are in
front of an item, where the row is closed. So they make the same number of steps,
and from there on the same words are left for both.

If no item has just ended, something goes wrong, and what goes wrong depends on
where it is. A comma in front of the first item, or behind another comma, is
never read. Without it the row would have been closed, and that is why the comma
is optional only behind an item. Anywhere else both readers fail; but the one
with the comma may take it first, if the row is closed by the wrong character,
and then fails one step later.

Nothing is seen of the places of tokens here, since the comma moves all that
follows. Where an object was met is in its location, and so the objects are the
same but for the positions in their locations.

## Main definitions

* `Mode.PastItem`: behind some words the reader will not be in front of an item.
* `Near`: the two streams of a document on the way.
* `AtPlace`: the two readers in front of the comma and of what closes the row.

## Theorems

* `Near.step`, `Near.run`: the readers stay together, or the one with the comma fails.
* `trailing_comma_optional`: the comma can be inserted and removed.
-/

namespace GraphText

/-- The word opens a row or goes on with it. -/
def Lexeme.BeginsItem (l : Lexeme) : Prop :=
  l = .punct '\x7b' ∨ l = .punct '[' ∨ l = .punct ','

namespace Reader

/-- Where these words end, the reader is not in front of an item. Before the first of them it is in
    this mode. -/
def Mode.PastItem (mode : Mode) : List Lexeme → Prop
  | [] => mode.rank ≠ 1
  | [l] => ¬ l.BeginsItem
  | _ :: l :: ls => PastItem mode (l :: ls)

namespace Mode.PastItem

variable {mode mode' : Mode} {l : Lexeme} {ls : List Lexeme}

theorem concat (h : ¬ l.BeginsItem) (ls : List Lexeme) : mode.PastItem (ls ++ [l]) := by
  induction ls with
  | nil => exact h
  | cons l' ls ih =>
      cases ls with
      | nil => exact ih
      | cons _ _ => exact ih

/-- In front of a word the mode does not matter. -/
theorem keep (h : mode.PastItem (l :: ls)) : mode'.PastItem (l :: ls) := by
  induction ls generalizing l with
  | nil => exact h
  | cons l' ls ih => exact ih (l := l') h

/-- Behind the end of an object the reader is not in front of an item. -/
theorem behind (h : mode.PastItem ls) (hrank : mode'.rank = 2) : mode'.PastItem ls := by
  cases ls with
  | nil =>
      intro hone
      rw [hrank] at hone
      cases hone
  | cons l ls => exact h.keep

/-- A word has been taken. -/
theorem take (h : mode.PastItem (l :: ls)) (hnext : mode'.rank = 1 → l.BeginsItem) :
    mode'.PastItem ls := by
  cases ls with
  | nil => exact fun hrank => h (hnext hrank)
  | cons l' ls =>
      have hrest : mode.PastItem (l' :: ls) := h
      exact hrest.keep

end Mode.PastItem

/-- What is left of a document of two texts, in this mode: the same, or the same words up to a place
    where it is not. If an item is known to end there, the reader will not be in front of one. -/
inductive Near (ends : Prop) (bare trailed : List Char) (mode : Mode) :
    TokenStream → TokenStream → Prop where
  | same {s t : TokenStream} (h : Blur.placeless.Streams s t) : Near ends bare trailed mode s t
  | ahead {c d : Cursor} {ls : List Lexeme} (hs : Lexeme.Passes c.rest ls bare)
      (ht : Lexeme.Passes d.rest ls trailed) (hdollar : .punct '$' ∉ ls)
      (hends : ends → mode.PastItem ls) : Near ends bare trailed mode ⟨c, []⟩ ⟨d, []⟩

theorem near_allows (ends : Prop) (bare trailed : List Char) :
    Blur.placeless.Allows (Near ends bare trailed) where
  same := .same
  behind := by
    intro mode mode' s t h hrank
    cases h with
    | same h => exact .same h
    | ahead hs ht hdollar hends => exact .ahead hs ht hdollar fun h => (hends h).behind hrank

/-- The run comes to no result. -/
def Fails (env : Environment) (s : State) : Prop :=
  ∃ e, run env s = .error e

theorem fails_of_fault {env : Environment} {s : State} {after : TokenStream} {l : Lexeme}
    {p : Position} {fault : Fault}
    (hread : s.document.read s.document.tokens = .ok (⟨l, p⟩, after)) (hl : l ≠ .punct '$')
    (h : turn env.registry s.document.source s.heap s.document.context ⟨l, p⟩ = .error fault) :
    Fails env s :=
  ⟨_, run_of_error (step_of_fault hread hl h)⟩

theorem eq_error_of_result {k : Carrier} {α β : Type} {f : α → β} {x : Result α} {fault : Fault}
    (h : k.result f x = k.result f (.error fault)) : ∃ fault', x = .error fault' := by
  cases x with
  | error fault' => exact ⟨fault', rfl⟩
  | ok a => cases h

theorem eq_ok_of_result {k : Carrier} {α β : Type} {f : α → β} {x : Result α} {b : α}
    (h : k.result f x = k.result f (.ok b)) : ∃ a, x = .ok a ∧ f a = f b := by
  cases x with
  | error fault => cases h
  | ok a => exact ⟨a, rfl, Except.ok.inj h⟩

section

variable {env : Environment} {s t : State} {ends : Prop} {bare trailed middle behind : List Char}
  {close : Char}

/-- In front of the place both readers make the same of the next word. -/
theorem Near.step_ahead (h : Blur.placeless.States (Near ends bare trailed) s t) {c d : Cursor}
    (hsc : s.document.tokens = ⟨c, []⟩) (htd : t.document.tokens = ⟨d, []⟩) {l : Lexeme}
    {ls : List Lexeme} (hs : Lexeme.Passes c.rest (l :: ls) bare)
    (ht : Lexeme.Passes d.rest (l :: ls) trailed) (hdollar : .punct '$' ∉ l :: ls)
    (hends : ends → s.document.context.mode.PastItem (l :: ls)) :
    Blur.placeless.Agree (Blur.placeless.Next (Near ends bare trailed)) (step env s)
      (step env t) := by
  have hl : l ≠ .punct '$' := fun heq => hdollar (heq ▸ List.mem_cons_self)
  have hrest : .punct '$' ∉ ls := fun hmem => hdollar (List.mem_cons_of_mem _ hmem)
  cases hs with
  | cons hstarts _ hs' =>
      cases ht with
      | cons hstarts' _ ht' =>
          rcases read_of_starts s.document hstarts with ⟨p, c', hread, rfl⟩
          rcases read_of_starts t.document hstarts' with ⟨q, d', hread', rfl⟩
          rw [← hsc] at hread
          rw [← htd] at hread'
          refine Blur.step_of_word (near_allows ends bare trailed) h hread hread' hl rfl
            fun x hx => ?_
          -- A word that is taken is taken by both; one that is kept is still in front of both.
          cases x with
          | take heap context =>
              exact .ahead hs' ht' hrest fun hend => (hends hend).take (opener_of_take hx)
          | keep heap context =>
              unfold Blur.Leaves
              rw [hsc, htd]
              exact .ahead (.cons hstarts ‹_› hs') (.cons hstarts' ‹_› ht') hdollar
                fun hend => (hends hend).keep
          | enter path start target =>
              have hmode : s.document.context.mode = .includingPath start path target :=
                turn_cases hx
              refine .ahead hs' ht' hrest fun hend => (hends hend).take fun hrank => ?_
              rw [hmode] at hrank
              cases hrank
          | leave => trivial

theorem Mode.rank_carried (k : Carrier) (mode : Mode) : (mode.carried k).rank = mode.rank := by
  cases mode <;> rfl

theorem Mode.closer_carried (k : Carrier) (mode : Mode) :
    (mode.carried k).closer = mode.closer := by
  cases mode <;> rfl

theorem Mode.row?_carried (k : Carrier) (mode : Mode) :
    (mode.carried k).row? = mode.row?.map (Mode.carried k) := by
  cases mode <;> rfl

theorem Mode.closer_ne_comma (mode : Mode) : ',' ≠ mode.closer := by
  unfold closer
  split <;> decide

/-- The mode of the second reader, if the first is behind an item. -/
theorem Near.row? (h : Blur.placeless.States (Near ends bare trailed) s t) :
    t.document.context.mode.row?.map (Mode.carried Blur.placeless.carrier) =
      s.document.context.mode.row?.map (Mode.carried Blur.placeless.carrier) := by
  have hmodes : s.document.context.mode.carried Blur.placeless.carrier =
      t.document.context.mode.carried Blur.placeless.carrier :=
    congrArg Context.mode h.document.context
  rw [← Mode.row?_carried, ← Mode.row?_carried, hmodes]

/-- The readers at the place, one in front of what closes the row and one in front of the comma. -/
structure AtPlace (ends : Prop) (bare trailed middle behind : List Char) (close : Char)
    (s t : State) : Prop where
  states : Blur.placeless.States (Near ends bare trailed) s t
  closes : close = '\x7d' ∨ close = ']'
  comma : Lexeme.Comma close bare trailed middle behind
  bare : ∃ c : Cursor, s.document.tokens = ⟨c, []⟩ ∧ c.rest = bare
  trailed : ∃ d : Cursor, t.document.tokens = ⟨d, []⟩ ∧ d.rest = trailed
  past : ends → s.document.context.mode.rank ≠ 1

namespace AtPlace

theorem closer_ne_comma (h : AtPlace ends bare trailed middle behind close s t) : close ≠ ',' := by
  rcases h.closes with rfl | rfl <;> decide

theorem ne_dollar (h : AtPlace ends bare trailed middle behind close s t) :
    Lexeme.punct close ≠ .punct '$' := by
  rcases h.closes with rfl | rfl <;> decide

theorem isForeign (h : AtPlace ends bare trailed middle behind close s t) :
    (Lexeme.punct close).IsForeign :=
  .inr h.closes

theorem read_bare (h : AtPlace ends bare trailed middle behind close s t) :
    ∃ p after, s.document.read s.document.tokens = .ok (⟨.punct close, p⟩, after) := by
  rcases h.bare with ⟨c, hc, rfl⟩
  rcases read_of_starts s.document h.comma.bare with ⟨p, c', hread, -⟩
  rw [hc]
  exact ⟨p, _, hread⟩

theorem read_trailed (h : AtPlace ends bare trailed middle behind close s t) :
    ∃ q d, t.document.read t.document.tokens = .ok (⟨.punct ',', q⟩, ⟨d, []⟩) ∧
      d.rest = middle := by
  rcases h.trailed with ⟨d, hd, rfl⟩
  rw [hd]
  exact read_of_starts t.document h.comma.comma

end AtPlace

/-- Behind an item the reader without the comma keeps what closes the row, and the one with it takes
    the comma. If something else closes the row, both fail. -/
theorem AtPlace.step_row (h : AtPlace ends bare trailed middle behind close s t) {row : Mode}
    (hrow : s.document.context.mode.row? = some row) :
    Blur.placeless.Agree (Blur.placeless.Next (Near ends bare trailed)) (step env s)
      (step env t) ∨ Fails env t ∧ Fails env s := by
  have hdoc := h.states.document
  rcases h.read_bare with ⟨p, after, hread⟩
  rcases h.read_trailed with ⟨q, d, hread', hd⟩
  have hrows := Near.row? h.states
  rw [hrow, Option.map_some] at hrows
  rcases Option.map_eq_some_iff.1 hrows with ⟨row', hrow', hsame⟩
  -- The comma is taken.
  have hturn' : turn env.registry t.document.source t.heap t.document.context ⟨.punct ',', q⟩ =
      .ok (.take t.heap (t.document.context.enter row')) := by
    rw [turn_of_row? hrow', takeSeparator, if_pos rfl]
  have hdollar : Lexeme.punct ',' ≠ .punct '$' := by decide
  have hstep' := step_of_turn hread' hdollar hturn'
  have hturn : turn env.registry s.document.source s.heap s.document.context ⟨.punct close, p⟩ =
      if close = row.closer then .ok (.keep s.heap (s.document.context.enter row))
      else unexpected (.separator row.closer) ⟨.punct close, p⟩ := by
    rw [turn_of_row? hrow, takeSeparator,
      if_neg fun heq => h.closer_ne_comma (Lexeme.punct.inj heq)]
    simp only [Lexeme.punct.injEq]
  by_cases hcloses : close = row.closer
  · rw [if_pos hcloses] at hturn
    refine .inl ?_
    rw [step_of_turn hread h.ne_dollar hturn, hstep']
    have hcontext : (s.document.context.enter row).carried Blur.placeless.carrier =
        (t.document.context.enter row').carried Blur.placeless.carrier := by
      rw [← enter_carried, ← enter_carried, hdoc.context, hsame]
    have htokens : Blur.placeless.Streams s.document.tokens ⟨d, []⟩ := by
      rcases h.bare with ⟨c, hc, rfl⟩
      subst hd
      rw [hc]
      refine ⟨⟨?_, rfl⟩, .nil⟩
      rw [Cursor.tokenStart_of_punct h.comma.bare, Cursor.tokenStart_of_punct h.comma.trailed]
    exact .inl ⟨h.states.heap, h.states.dependencies,
      ⟨hdoc.source, hdoc.directory, .same htokens, hcontext⟩, h.states.waiting, h.states.rootFile⟩
  · rw [if_neg hcloses] at hturn
    refine .inr ⟨?_, ?_⟩
    · -- The row is not closed behind the comma either.
      have hcloser : row.closer = row'.closer := by
        rw [← Mode.closer_carried Blur.placeless.carrier row, ← hsame, Mode.closer_carried]
      subst hd
      rcases read_of_starts { t.document with
        tokens := ⟨d, []⟩, context := t.document.context.enter row' } h.comma.trailed with
        ⟨p', d', hread'', -⟩
      unfold Fails
      rw [run_of_step hstep']
      refine run_of_row hread'' (Mode.rank_of_row? hrow') h.isForeign fun heq => hcloses ?_
      rw [hcloser]
      exact Lexeme.punct.inj heq
    · exact fails_of_fault hread h.ne_dollar hturn

/-- In a mode that has to do with no row both readers do the same. -/
theorem AtPlace.step_passive (h : AtPlace ends bare trailed middle behind close s t)
    (hrow : s.document.context.mode.row? = none) (hrank : s.document.context.mode.rank ≠ 1) :
    Blur.placeless.Agree (Blur.placeless.Next (Near ends bare trailed)) (step env s)
      (step env t) ∨ Fails env t ∧ Fails env s := by
  rcases h.read_bare with ⟨p, after, hread⟩
  rcases h.read_trailed with ⟨q, d, hread', -⟩
  have hcomma : (Lexeme.punct ',').IsForeign := .inl rfl
  have hdollar : Lexeme.punct ',' ≠ .punct '$' := by decide
  -- What the first reader would make of the comma, the second one does.
  have hturns := h.states.turn env (.punct ',') (p := p) (q := q) rfl
  rcases passive_turn env.registry s.document.source s.heap p hrow hrank with
    hfault | ⟨heap, context, hpast, hkeep⟩
  · refine .inr ⟨?_, ?_⟩
    · rcases hfault _ hcomma with ⟨fault, hturn⟩
      rw [show turn env.registry s.document.source s.heap s.document.context ⟨.punct ',', p⟩ =
        .error fault from hturn] at hturns
      rcases eq_error_of_result hturns.symm with ⟨fault', hturn'⟩
      exact fails_of_fault hread' hdollar hturn'
    · rcases hfault _ h.isForeign with ⟨fault, hturn⟩
      exact fails_of_fault hread h.ne_dollar hturn
  · refine .inl ?_
    rw [show turn env.registry s.document.source s.heap s.document.context ⟨.punct ',', p⟩ =
      .ok (.keep heap context) from hkeep _ hcomma] at hturns
    rcases eq_ok_of_result hturns.symm with ⟨y, hturn', hy⟩
    rw [step_of_turn hread h.ne_dollar (hkeep _ h.isForeign), step_of_turn hread' hdollar hturn']
    refine Blur.outcome (near_allows ends bare trailed) h.states hy.symm ?_
    rcases h.bare with ⟨c, hc, rfl⟩
    rcases h.trailed with ⟨d', hd', rfl⟩
    unfold Blur.Leaves
    rw [hc, hd']
    exact .ahead .nil .nil List.not_mem_nil fun _ => hpast

/-- A step at the place. -/
theorem AtPlace.step (h : AtPlace ends bare trailed middle behind close s t) :
    Blur.placeless.Agree (Blur.placeless.Next (Near ends bare trailed)) (step env s)
      (step env t) ∨ Fails env t ∧ (ends → Fails env s) := by
  by_cases hrank : s.document.context.mode.rank = 1
  · -- In front of an item no comma is read.
    refine .inr ⟨?_, fun hend => absurd hrank (h.past hend)⟩
    rcases h.read_trailed with ⟨q, d, hread, -⟩
    have hmodes : s.document.context.mode.carried Blur.placeless.carrier =
        t.document.context.mode.carried Blur.placeless.carrier :=
      congrArg Context.mode h.states.document.context
    have hrank' : t.document.context.mode.rank = 1 := by
      rw [← hrank, ← Mode.rank_carried Blur.placeless.carrier, ← hmodes, Mode.rank_carried]
    exact run_of_row hread hrank' (.inl rfl) fun heq =>
      Mode.closer_ne_comma _ (Lexeme.punct.inj heq)
  · cases hrow : s.document.context.mode.row? with
    | none => exact (h.step_passive hrow hrank).imp_right fun ⟨ht, hs⟩ => ⟨ht, fun _ => hs⟩
    | some row => exact (h.step_row hrow).imp_right fun ⟨ht, hs⟩ => ⟨ht, fun _ => hs⟩

/-- The readers stay together, or the one with the comma fails. Then the other one fails as well, if
    an item is known to end in front of the comma. -/
theorem Near.step (env : Environment) (hcomma : Lexeme.Comma close bare trailed middle behind)
    (hclose : close = '\x7d' ∨ close = ']')
    (h : Blur.placeless.States (Near ends bare trailed) s t) :
    Blur.placeless.Agree (Blur.placeless.Next (Near ends bare trailed)) (step env s)
      (step env t) ∨ Fails env t ∧ (ends → Fails env s) := by
  have htokens := h.document.tokens
  generalize hs : s.document.tokens = left at htokens
  generalize ht : t.document.tokens = right at htokens
  cases htokens with
  | same hsame =>
      refine .inl (Blur.step_agree (near_allows ends bare trailed) h ?_)
      rw [hs, ht]
      exact hsame
  | @ahead c d ls hpasses hpasses' hdollar hends =>
      cases ls with
      | nil =>
          cases hpasses
          cases hpasses'
          exact AtPlace.step ⟨h, hclose, hcomma, ⟨c, hs, rfl⟩, ⟨d, ht, rfl⟩, hends⟩
      | cons l ls => exact .inl (step_ahead h hs ht hpasses hpasses' hdollar hends)

/-- The readers come to ends that look the same, or the one with the comma fails. -/
theorem Near.run (env : Environment) (hcomma : Lexeme.Comma close bare trailed middle behind)
    (hclose : close = '\x7d' ∨ close = ']')
    (h : Blur.placeless.States (Near ends bare trailed) s t) :
    Blur.placeless.Agree Blur.placeless.Outputs (run env s) (run env t) ∨
      Fails env t ∧ (ends → Fails env s) := by
  -- The induction is on the run without the comma.
  induction s using run.induct env generalizing t with
  | case1 s e hs =>
      rcases Near.step env hcomma hclose h with hstep | hfails
      · rw [hs] at hstep
        rcases hstep.of_error with ⟨f, ht, hef⟩
        rw [run_of_error hs, run_of_error ht]
        exact .inl hef
      · exact .inr hfails
  | case2 s out hs =>
      rcases Near.step env hcomma hclose h with hstep | hfails
      · rw [hs] at hstep
        rcases hstep.of_ok with ⟨_, ht, ⟨⟩ | ⟨hout⟩⟩
        rw [run_of_last hs, run_of_last ht]
        exact .inl hout
      · exact .inr hfails
  | case3 s s' hs ih =>
      rcases Near.step env hcomma hclose h with hstep | hfails
      · rw [hs] at hstep
        rcases hstep.of_ok with ⟨_, ht, ⟨hnext⟩ | ⟨⟩⟩
        unfold Fails at ih ⊢
        rw [run_of_step hs, run_of_step ht]
        exact ih hnext
      · exact .inr hfails

end

end Reader

open Reader

section

variable {env : Environment} {heap : Heap} {text : String} {out : Output}
  {front behind : List Char} {before : List Lexeme} {last : Lexeme} {close : Char}

/-- Behind an item a comma can be inserted in front of what closes the row. -/
theorem readText_insert (hread : readText env heap text = .ok out)
    (hclose : close = '\x7d' ∨ close = ']')
    (hstands : Lexeme.Stands text.toList front (before ++ [last]) close behind)
    (hdollar : .punct '$' ∉ before ++ [last]) (hlast : ¬ last.BeginsItem) :
    ∃ out', readText env heap (String.ofList (front ++ ',' :: close :: behind)) = .ok out' ∧
      Blur.placeless.Outputs out out' := by
  rcases hstands.passes.concat with ⟨mid, hwords, -⟩
  have hknown := known_of_readText hread hwords hdollar '#'
  rcases hstands.insert hknown with ⟨bare, trailed, hcomma, hs, ht⟩
  rw [← String.toList_ofList (l := front ++ ',' :: close :: behind)] at ht
  have hleft : Near True bare trailed (.object .root) (.ofText text)
      (.ofText (String.ofList (front ++ ',' :: close :: behind))) :=
    .ahead hs ht hdollar fun _ => Mode.PastItem.concat hlast before
  rcases Near.run env hcomma hclose (Blur.states_of_texts env heap hleft) with hagree | ⟨-, hfails⟩
  · unfold readText at hread
    rw [hread] at hagree
    exact hagree.of_ok
  · rcases hfails trivial with ⟨e, he⟩
    cases hread.symm.trans he

/-- A comma in front of what closes the row can be removed. -/
theorem readText_remove {gap : List Char} (hread : readText env heap text = .ok out)
    (hclose : close = '\x7d' ∨ close = ']')
    (hstands : Lexeme.Stands text.toList front before ',' (gap ++ close :: behind))
    (hbehind : Lexeme.Starts (gap ++ close :: behind) (.punct close) behind)
    (hdollar : .punct '$' ∉ before) :
    ∃ out', readText env heap (String.ofList (front ++ (gap ++ close :: behind))) = .ok out' ∧
      Blur.placeless.Outputs out out' := by
  rcases hstands.passes.concat with ⟨mid, hwords, -⟩
  have hknown := known_of_readText hread hwords hdollar '#'
  rcases hstands.remove hbehind hknown with ⟨bare, trailed, hcomma, ht, hs⟩
  rw [← String.toList_ofList (l := front ++ (gap ++ close :: behind))] at hs
  have hleft : Near False bare trailed (.object .root)
      (.ofText (String.ofList (front ++ (gap ++ close :: behind)))) (.ofText text) :=
    .ahead hs ht hdollar False.elim
  rcases Near.run env hcomma hclose (Blur.states_of_texts env heap hleft) with hagree | ⟨⟨e, he⟩, -⟩
  · unfold readText at hread
    rw [hread] at hagree
    rcases hagree.symm.of_ok with ⟨out', hread', hout⟩
    exact ⟨out', hread', hout.symm⟩
  · cases hread.symm.trans he

/-- The comma behind the last item is optional. In a text that is read, take a brace or a bracket
    that closes something that is not empty, with no `$` among the words in front of it. If no comma
    stands in front of it, one can be inserted, and if one does, that can be removed. The text that
    comes of it is read as well, and what is read differs in the places of objects only. -/
theorem trailing_comma_optional (hread : readText env heap text = .ok out)
    (hclose : close = '\x7d' ∨ close = ']')
    (hstands : Lexeme.Stands text.toList front (before ++ [last]) close behind)
    (hdollar : .punct '$' ∉ before ++ [last])
    (hopen : last ≠ .punct '\x7b' ∧ last ≠ .punct '[') :
    (last ≠ .punct ',' →
      ∃ out', readText env heap (String.ofList (front ++ ',' :: close :: behind)) = .ok out' ∧
        Blur.placeless.Outputs out out') ∧
    (last = .punct ',' →
      ∃ front' gap, front = front' ++ ',' :: gap ∧
        Lexeme.Stands text.toList front' before ',' (gap ++ close :: behind) ∧
        ∃ out',
          readText env heap (String.ofList (front' ++ (gap ++ close :: behind))) = .ok out' ∧
          Blur.placeless.Outputs out out') := by
  have hdollar' : .punct '$' ∉ before := fun hmem => hdollar (List.mem_append_left _ hmem)
  -- One way the comma is put in, and the other way it is found in the text and left out.
  refine ⟨fun hcomma => ?_, ?_⟩
  · refine readText_insert hread hclose hstands hdollar ?_
    rintro (heq | heq | heq)
    · exact hopen.1 heq
    · exact hopen.2 heq
    · exact hcomma heq
  · rintro rfl
    rcases hstands.passes.of_append with ⟨mid, hwords, -⟩
    have hknown := known_of_readText hread hwords hdollar '#'
    rcases hstands.comma fun hmem => hknown (List.mem_append_left _ hmem) with
      ⟨front', gap, hfront, hbehind, hstands'⟩
    exact ⟨front', gap, hfront, hstands', readText_remove hread hclose hstands' hbehind hdollar'⟩

/-- A list of one node, with a comma behind it and without. Each is read because the other is. -/
theorem trailing_comma_optional_listing :
    ∃ out out',
      readText (.nodes fun _ => .error "") .empty "Node \x7b all: [Node \x7b\x7d] \x7d" = .ok out ∧
      readText (.nodes fun _ => .error "") .empty "Node \x7b all: [Node \x7b\x7d,] \x7d" =
        .ok out' ∧
      Blur.placeless.Outputs out out' ∧ Blur.placeless.Outputs out' out := by
  have hout : ((Input.text "Node \x7b all: [Node \x7b\x7d] \x7d").outputWithin?
      (.nodes fun _ => .error "") .empty 20).isSome = true := by
    decide +kernel
  rcases Option.isSome_iff_exists.1 hout with ⟨out, hout⟩
  have hread : readText (.nodes fun _ => .error "") .empty "Node \x7b all: [Node \x7b\x7d] \x7d" =
      .ok out := Input.read_of_outputWithin? hout
  let before : List Lexeme :=
    [.name "Node", .punct '\x7b', .name "all", .punct ':', .punct '[', .name "Node", .punct '\x7b']
  have hstands : Lexeme.Stands "Node \x7b all: [Node \x7b\x7d] \x7d".toList
      "Node \x7b all: [Node \x7b\x7d".toList (before ++ [.punct '\x7d']) ']' [' ', '\x7d'] :=
    ⟨rfl, .cons ⟨4, rfl, rfl⟩ nofun <| .cons ⟨1, rfl, rfl⟩ nofun <| .cons ⟨3, rfl, rfl⟩ nofun <|
      .cons ⟨1, rfl, rfl⟩ nofun <| .cons ⟨1, rfl, rfl⟩ nofun <| .cons ⟨4, rfl, rfl⟩ nofun <|
      .cons ⟨1, rfl, rfl⟩ nofun <| .cons ⟨1, rfl, rfl⟩ nofun <| .cons ⟨1, rfl, rfl⟩ nofun .nil⟩
  rcases (trailing_comma_optional hread (.inr rfl) hstands (by decide) (by decide)).1
    (by decide) with ⟨out', hread', hsame⟩
  have hstands' : Lexeme.Stands "Node \x7b all: [Node \x7b\x7d,] \x7d".toList
      "Node \x7b all: [Node \x7b\x7d,".toList (before ++ [.punct '\x7d'] ++ [.punct ',']) ']'
      [' ', '\x7d'] :=
    ⟨rfl, .cons ⟨4, rfl, rfl⟩ nofun <| .cons ⟨1, rfl, rfl⟩ nofun <| .cons ⟨3, rfl, rfl⟩ nofun <|
      .cons ⟨1, rfl, rfl⟩ nofun <| .cons ⟨1, rfl, rfl⟩ nofun <| .cons ⟨4, rfl, rfl⟩ nofun <|
      .cons ⟨1, rfl, rfl⟩ nofun <| .cons ⟨1, rfl, rfl⟩ nofun <| .cons ⟨1, rfl, rfl⟩ nofun <|
      .cons ⟨1, rfl, rfl⟩ nofun .nil⟩
  rcases (trailing_comma_optional hread' (.inr rfl) hstands' (by decide) (by decide)).2 rfl with
    ⟨front, gap, hfront, -, out'', hread'', hsame'⟩
  -- The only comma of the text is the one that was put in.
  have hcomma : "Node \x7b all: [Node \x7b\x7d".toList ++ ',' :: [] = front ++ ',' :: gap := hfront
  rcases (List.append_cons_inj_of_notMem (by decide) (by decide)).1 hcomma with ⟨rfl, -, rfl⟩
  cases hread.symm.trans hread''
  exact ⟨out, out', hread, hread', hsame, hsame'⟩

end

end GraphText

import GraphText.Proofs.Reader.Rows
import GraphText.Proofs.Reader.Trail
import GraphText.Proofs.Token.Passages

/-!
# Words that are not known

A character that begins nothing else is a word of its own, and a `#` is one if it
starts no comment. The reader accepts neither anywhere. It may keep such a word,
if it was only waiting for something that does not follow, but it never takes it.
So no text that is read has such a word in it, as far as it has been read as it
stands: behind a `$` words come from a constant, and what stands there is only
the name of one.

The text may be waiting for an include, or for several that are in each other.
What is said is therefore said of any of the documents that are being read.

## Main definitions

* `Document.Blocked`: a word that is not known is left of a document.

## Theorems

* `blocked_of_step`: it is left as long as anything is read.
* `known_of_readText`: a text that is read has no word that is not known.
-/

namespace GraphText

namespace Reader

/-- A document in front of a word of its text reads it. -/
theorem read_of_starts (doc : Document) {c : Cursor} {l : Lexeme} {rest : List Char}
    (h : Lexeme.Starts c.rest l rest) :
    ∃ p d, doc.read ⟨c, []⟩ = .ok (⟨l, p⟩, ⟨d, []⟩) ∧ d.rest = rest := by
  rcases Cursor.next_of_starts h c.position with ⟨p, q, hnext⟩
  refine ⟨p, ⟨rest, q⟩, ?_, rfl⟩
  have htokens : (⟨c, []⟩ : TokenStream).next = .ok (⟨l, p⟩, ⟨⟨rest, q⟩, []⟩) := by
    unfold TokenStream.next
    rw [TokenStream.nextFrom, hnext]
  rw [Document.read, htokens]
  rfl

/-- A word that is not known is left of the document, and no `$` in front of it. -/
def Document.Blocked (doc : Document) : Prop :=
  ∃ before x rest, doc.tokens.expansions = [] ∧
    Lexeme.Passes doc.tokens.base.rest (before ++ [.unknown x]) rest ∧ .punct '$' ∉ before

section

variable {env : Environment} {heap : Heap} {s : State} {doc : Document}

/-- The next word of a blocked document is the one that is not known, or one in front of it. -/
theorem Document.Blocked.next (h : doc.Blocked) :
    ∃ l p after, doc.read doc.tokens = .ok (⟨l, p⟩, after) ∧ l ≠ .eof ∧ l ≠ .punct '$' ∧
      ((∃ x, l = .unknown x) ∨ ∀ context, { doc with tokens := after, context }.Blocked) := by
  rcases doc with ⟨source, directory, ⟨base, expansions⟩, context⟩
  rcases h with ⟨before, x, rest, rfl, hpasses, hdollar⟩
  cases before with
  | nil =>
      cases hpasses with
      | cons hstarts hl _ =>
          rcases read_of_starts ⟨source, directory, ⟨base, []⟩, context⟩ hstarts with
            ⟨p, d, hread, -⟩
          exact ⟨_, p, _, hread, hl, nofun, .inl ⟨x, rfl⟩⟩
  | cons l before =>
      cases hpasses with
      | cons hstarts hl hrest =>
          rcases read_of_starts ⟨source, directory, ⟨base, []⟩, context⟩ hstarts with
            ⟨p, d, hread, rfl⟩
          have hne : l ≠ .punct '$' := fun heq => hdollar (heq ▸ List.mem_cons_self)
          refine ⟨l, p, _, hread, hl, hne, .inr fun _ => ⟨before, x, rest, rfl, hrest, ?_⟩⟩
          exact fun hmem => hdollar (List.mem_cons_of_mem _ hmem)

/-- If the innermost document is blocked, it still is behind every step, or it waits. -/
theorem Document.Blocked.step {result : State ⊕ Output} (h : s.document.Blocked)
    (hstep : Reader.step env s = .ok result) :
    ∃ s', result = .inl s' ∧ ∃ doc ∈ s'.documents, doc.Blocked := by
  rcases h.next with ⟨l, p, after, hread, heof, hdollar, hnext⟩
  rcases step_eq_ok hstep with ⟨token, after', hread', hcases⟩
  cases hread.symm.trans hread'
  rcases hcases with ⟨hl, -⟩ | ⟨-, t, hturn⟩
  · exact absurd hl hdollar
  rw [step_of_turn hread hdollar hturn] at hstep
  -- Only a word in front of the one that is not known can be taken.
  have htaken : (∀ heap' c', t ≠ .keep heap' c') →
      ∀ context, { s.document with tokens := after, context }.Blocked := by
    intro hkeep
    refine hnext.resolve_left ?_
    rintro ⟨x, rfl⟩
    rcases turn_of_unknown hturn with ⟨heap', c', rfl⟩
    exact hkeep heap' c' rfl
  cases t with
  | take heap' c' =>
      cases hstep
      exact ⟨_, rfl, _, List.mem_cons_self, htaken (fun _ _ => Turn.noConfusion) c'⟩
  | keep heap' c' =>
      cases hstep
      exact ⟨_, rfl, _, List.mem_cons_self, h⟩
  | enter path start target =>
      rcases map_eq_ok hstep with ⟨s', henter, rfl⟩
      rcases enter_eq_ok_iff.1 henter with ⟨file, included, -, rfl⟩
      have hblocked := htaken (fun _ _ => Turn.noConfusion) s.document.context
      exact ⟨_, rfl, _, List.mem_cons_of_mem _ List.mem_cons_self, hblocked⟩
  | leave root => exact absurd (eof_of_leave hturn) heof

/-- A document that is blocked is left as long as anything is read. -/
theorem blocked_of_step {result : State ⊕ Output} (h : ∃ doc ∈ s.documents, doc.Blocked)
    (hstep : step env s = .ok result) :
    ∃ s', result = .inl s' ∧ ∃ doc ∈ s'.documents, doc.Blocked := by
  rcases h with ⟨doc, hdoc, hblocked⟩
  rcases List.mem_cons.1 hdoc with rfl | hdoc
  · exact hblocked.step hstep
  cases result with
  | inr out =>
      rcases step_eq_inr hstep with ⟨hwaiting, -⟩
      rw [hwaiting] at hdoc
      cases hdoc
  | inl s' =>
      refine ⟨s', rfl, ?_⟩
      cases stepped_of_step hstep with
      | expand | move => exact ⟨doc, List.mem_cons_of_mem _ hdoc, hblocked⟩
      | enter _ _ henter =>
          rcases enter_eq_ok_iff.1 henter with ⟨file, included, -, rfl⟩
          exact ⟨doc, List.mem_cons_of_mem _ (List.mem_cons_of_mem _ hdoc), hblocked⟩
      | leave _ hwaiting hresume =>
          rcases resume_eq_ok hresume with ⟨heap', context, -, rfl⟩
          rw [hwaiting, List.map_cons] at hdoc
          rcases List.mem_cons.1 hdoc with rfl | hdoc
          · exact ⟨_, List.mem_cons_self, hblocked⟩
          · exact ⟨doc, List.mem_cons_of_mem _ hdoc, hblocked⟩

/-- Nothing is read while a document is blocked. -/
theorem run_of_blocked (h : ∃ doc ∈ s.documents, doc.Blocked) (out : Output) :
    run env s ≠ .ok out := by
  induction s using run.induct env with
  | case1 s e hs =>
      rw [run_of_error hs]
      nofun
  | case2 s output hs =>
      rcases blocked_of_step h hs with ⟨s', heq, -⟩
      cases heq
  | case3 s s' hs ih =>
      rcases blocked_of_step h hs with ⟨_, heq, hnext⟩
      cases heq
      rw [run_of_step hs]
      exact ih hnext

end

end Reader

open Reader

/-- A text that is read has no word that is not known, as far as it has no `$`. -/
theorem known_of_readText {env : Environment} {heap : Heap} {text : String} {out : Output}
    (hread : readText env heap text = .ok out) {ls : List Lexeme} {rest : List Char}
    (hpasses : Lexeme.Passes text.toList ls rest) (hdollar : .punct '$' ∉ ls) (x : Char) :
    .unknown x ∉ ls := by
  intro hmem
  rcases List.mem_iff_append.1 hmem with ⟨before, behind, rfl⟩
  rw [List.append_cons] at hpasses
  rcases hpasses.of_append with ⟨rest', hfront, -⟩
  refine run_of_blocked ⟨_, List.mem_cons_self, before, x, rest', rfl, hfront, ?_⟩ out hread
  exact fun h => hdollar (List.mem_append_left _ h)

end GraphText

import GraphText.Proofs.Reader.Faults
import GraphText.Proofs.Token.Nesting
import Mathlib.Data.List.Chain

/-!
# How deep constants are inserted

The reader refuses to expand a constant when too many layers are open. Layers
are not left when they end but when something is read behind them, so it is not
plain that the limit is one for how deep constants stand in constants: many
small ones, one after the other, might add up.

They do not. What is left of each document is traced here without layers, as a
list of tokens with the insertions that they are inside of: a turn takes the
first token or leaves it, and a `$` and the name behind it are replaced by the
tokens of a constant, which are inside of what the name was inside of and of one
more insertion. When the reader has read the name behind a `$`, its layers are
the insertions around the name, one by one. So it is the name that must not be
too deep, and if constants only refer to constants that do not lead back to them,
there is a limit that is never reached.

## Main definitions

* `Traced`: what is left of all documents, with the insertions around it.
* `Mentions`, `IsClosedTable`: constants that refer to constants.

## Theorems

* `depth_le_of_steps`: there are never too many layers.
* `held_of_traced`: the trace is what the layers hold.
* `expansions_exact`: layers are nested insertions, and so is the limit.
-/

namespace GraphText.Reader

/-- What is left of all documents behind a turn that comes to this state, the innermost first. -/
def Turn.left (s : State) (left : List Spot) (others : List (List Spot)) :
    Turn → List (List Spot)
  | take _ _ => left.tail :: others
  | keep _ _ => left :: others
  | enter _ _ _ => Spot.ofCursor s.document.tokens.base :: left.tail :: others
  | leave _ => others

/-- What is left of all documents, the innermost first, on the way from the first state. -/
inductive Traced (env : Environment) (start : State) : State → List (List Spot) → Prop where
  | start : Traced env start start [Spot.ofCursor start.document.tokens.base]
  | expand {s s' dollar name word value behind others}
      (h : Traced env start s ((dollar :: name :: behind) :: others))
      (hstep : step env s = .ok (.inl s')) (hdollar : dollar.token.lexeme = .punct '$')
      (hword : name.token.lexeme = .name word)
      (hvalue : s.document.context.scopes.constant? word = some value) :
      Traced env start s'
        ((Insertion.spots ⟨word, value, dollar.token.position, name.index⟩ name.within ++ behind) ::
          others)
  | turn {s s' left others token after t} (h : Traced env start s (left :: others))
      (hread : s.document.tokens.next = .ok (token, after)) (hdollar : token.lexeme ≠ .punct '$')
      (hturn : turn env.registry s.document.source s.heap s.document.context token = .ok t)
      (hstep : step env s = .ok (.inl s')) : Traced env start s' (t.left s' left others)

/-- A text has a `$` with this name behind it. -/
def Mentions (text name : String) : Prop :=
  ∃ i, wordAt text i = some (.punct '$') ∧ wordAt text (i + 1) = some (.name name)

/-- A table of constants in which every `$` has a name of the table behind it, in the same text, and
    in which no more than so many constants refer to one another in a row. -/
structure IsClosedTable (table : String → Option String) (longest : Nat) : Prop where
  closed : ∀ name text, table name = some text → ∀ i, wordAt text i = some (.punct '$') →
    ∃ other, wordAt text (i + 1) = some (.name other) ∧ table other ≠ none
  longest : ∀ names : List String,
    names.IsChain (fun name other => ∃ text, table name = some text ∧ Mentions text other) →
    (∀ name ∈ names, table name ≠ none) → names.length ≤ longest

section

variable {env : Environment} {start s s' : State} {doc doc' : Document} {origin : Position}
  {behind after : TokenStream} {token name dollar : Token} {word value : String}

theorem read_of_next (h : behind.next = .ok (token, after)) :
    doc.read behind = .ok (token, after) := by
  unfold Document.read
  rw [h]
  rfl

/-- What is expanded behind a `$`. -/
theorem constant_of_expand (h : doc.expand env origin behind = .ok doc') :
    ∃ name after word value, behind.next = .ok (name, after) ∧ name.lexeme = .name word ∧
      doc.context.scopes.constant? word = some value ∧
      after.depth < env.options.maxSubstitutionDepth ∧
      doc' = { doc with tokens := after.splice value origin } := by
  rcases bind_eq_ok h with ⟨⟨name, after⟩, hread, h⟩
  have h := located_ok h
  split at h
  next word hword =>
    split at h
    · cases h
    next value hvalue =>
      split at h
      · cases h
      next hroom =>
        cases h
        exact ⟨name, after, word, value, read_eq_ok hread, hword, hvalue,
          Nat.lt_of_not_le hroom, rfl⟩
  · cases h

/-- A constant that is defined is expanded, unless too many layers are open behind its name. -/
theorem step_of_name (hdollar : s.document.tokens.next = .ok (dollar, after))
    (hl : dollar.lexeme = .punct '$') (hname : after.next = .ok (name, behind))
    (hword : name.lexeme = .name word)
    (hvalue : s.document.context.scopes.constant? word = some value) :
    step env s =
      if env.options.maxSubstitutionDepth ≤ behind.depth then
        .error ⟨.substitutionTooDeep word, some (s.document.locate name.position)⟩
      else
        .ok (.inl { s with
          document := { s.document with tokens := behind.splice value dollar.position } }) := by
  rw [step_of_dollar (read_of_next hdollar) hl]
  unfold Document.expand
  simp only [read_of_next hname, bind, Except.bind, hword, hvalue]
  split <;> rfl

/-- No document has too many layers. -/
def State.Shallow (env : Environment) (s : State) : Prop :=
  ∀ doc ∈ s.documents, doc.tokens.depth ≤ env.options.maxSubstitutionDepth

/-- A step leaves no document with too many layers. -/
theorem shallow_of_step (h : s.Shallow env) (hstep : step env s = .ok (.inl s')) :
    s'.Shallow env := by
  have hdoc := h s.document List.mem_cons_self
  have hwaiting : ∀ w ∈ s.waiting, w.document.tokens.depth ≤ env.options.maxSubstitutionDepth :=
    fun w hw => h _ (List.mem_cons_of_mem _ (List.mem_map_of_mem hw))
  -- The innermost document, and those below it.
  have hall : s'.document.tokens.depth ≤ env.options.maxSubstitutionDepth →
      (∀ w ∈ s'.waiting, w.document.tokens.depth ≤ env.options.maxSubstitutionDepth) →
      s'.Shallow env := by
    intro hfirst hrest doc hmem
    rcases List.mem_cons.1 hmem with rfl | hmem
    · exact hfirst
    · rcases List.mem_map.1 hmem with ⟨w, hw, rfl⟩
      exact hrest w hw
  cases stepped_of_step hstep with
  | expand hread hl hexpand =>
      rcases constant_of_expand hexpand with ⟨name, after, word, value, -, -, -, hroom, rfl⟩
      exact hall hroom hwaiting
  | move hread htokens hmove =>
      refine hall ?_ hwaiting
      rcases htokens with rfl | rfl
      · exact Nat.le_trans (TokenStream.depth_next_le (read_eq_ok hread)) hdoc
      · exact hdoc
  | enter hread hmode henter =>
      rcases enter_eq_ok_iff.1 henter with ⟨file, included, hopen, rfl⟩
      rcases openFile_eq_ok hopen with ⟨-, -, -, text, -, rfl⟩
      refine hall (Nat.zero_le _) fun w hw => ?_
      rcases List.mem_cons.1 hw with rfl | hw
      · exact Nat.le_trans (TokenStream.depth_next_le (read_eq_ok hread)) hdoc
      · exact hwaiting w hw
  | leave hmode hstack hresume =>
      rcases resume_eq_ok hresume with ⟨heap, context, -, rfl⟩
      rw [hstack] at hwaiting
      exact hall (hwaiting _ List.mem_cons_self) fun w hw => hwaiting w (List.mem_cons_of_mem _ hw)

theorem shallow_of_steps {heap : Heap} {input : Input} (hstart : input.start env heap = .ok start)
    (h : Steps env start s) : s.Shallow env := by
  refine h.preserves (fun a b hstep ha => shallow_of_step ha hstep) ?_
  rcases Input.start_eq_ok hstart with ⟨-, -, hwaiting, -, text, htext⟩
  intro doc hdoc
  rw [State.documents, hwaiting, List.map_nil, List.mem_singleton] at hdoc
  rw [hdoc, htext]
  exact Nat.zero_le _

end

section

variable {env : Environment} {start s s' : State} {P : List Insertion → Prop}
  {left : List (List Spot)}

/-- What is left of a document is held by its layers, and this is true of the insertions. -/
def Held (P : List Insertion → Prop) (doc : Document) (left : List Spot) : Prop :=
  ∃ us, doc.tokens.Holds us left ∧ P us

theorem steps_of_traced (h : Traced env start s left) : Steps env start s := by
  induction h with
  | start => exact .refl
  | expand _ hstep _ _ _ ih => exact ih.tail hstep
  | turn _ _ _ _ hstep ih => exact ih.tail hstep

/-- What is true of some insertions is true of the outer ones, if it is without the innermost. -/
theorem of_suffix (htail : ∀ u us, P (u :: us) → P us) {us vs : List Insertion} (h : P us)
    (hsuffix : vs <:+ us) : P vs := by
  rcases hsuffix with ⟨inner, rfl⟩
  induction inner with
  | nil => exact h
  | cons u inner ih => exact ih (htail u _ h)

/-- The trace is what the layers hold. What is true of no insertions, remains true without the
    innermost one, and remains true when a constant is expanded, is true of all of them. -/
theorem held_of_traced {last : State} {heap : Heap} {input : Input}
    (hstart : input.start env heap = .ok start) (hnil : P []) (htail : ∀ u us, P (u :: us) → P us)
    (hinsert : ∀ (t : State) (dollar name : Spot) (word value : String),
      Steps env start t → Steps env t last → dollar.Stands → name.Stands →
      dollar.Precedes name → dollar.token.lexeme = .punct '$' →
      name.token.lexeme = .name word → t.document.context.scopes.constant? word = some value →
      P dollar.within → P name.within →
      P (⟨word, value, dollar.token.position, name.index⟩ :: name.within))
    (h : Traced env start s left) (hlast : Steps env s last) :
    List.Forall₂ (Held P) s.documents left := by
  induction h with
  | start =>
      rcases Input.start_eq_ok hstart with ⟨-, -, hwaiting, -, text, htext⟩
      rw [State.documents, hwaiting]
      refine .cons ⟨[], ?_, hnil⟩ .nil
      rw [htext]
      exact TokenStream.holds_ofText text
  | @expand t t' dollar name word value behind others h hstep hdollar hword hvalue ih =>
      rcases List.forall₂_cons.1 (ih (hlast.head hstep)) with ⟨⟨us, hholds, hus⟩, hothers⟩
      rcases step_eq_ok hstep with
        ⟨token, after, hread, ⟨hl, doc, hexpand, hs'⟩ | ⟨hl, turned, hturn⟩⟩
      · cases hs'
        rcases constant_of_expand hexpand with
          ⟨token', behind', word', value', hname, hword', hvalue', -, rfl⟩
        rcases TokenStream.spots_of_name hholds (read_eq_ok hread) hl hname hword' with
          ⟨d, n, rest, heq, rfl, rfl, hd, hn, hprecedes, hdin, hnin, hbehind⟩
        cases heq
        cases hword.symm.trans hword'
        cases hvalue.symm.trans hvalue'
        refine .cons ⟨_, hbehind.splice ⟨word, value, dollar.token.position, name.index⟩, ?_⟩
          hothers
        exact hinsert t dollar name word value (steps_of_traced h) (hlast.head hstep) hd hn
          hprecedes hdollar hword hvalue (of_suffix htail hus hdin) (of_suffix htail hus hnin)
      · rcases TokenStream.next_of_holds hholds (read_eq_ok hread) with
          ⟨-, hnil, -⟩ | ⟨m, rest, -, heq, rfl, -⟩
        · cases hnil
        · cases heq
          exact absurd hdollar hl
  | @turn t t' mine others token after turned h hread hdollar hturn hstep ih =>
      rcases List.forall₂_cons.1 (ih (hlast.head hstep)) with ⟨⟨us, hholds, hus⟩, hothers⟩
      -- What is left when the token has been taken.
      have htaken : ∃ us', after.Holds us' mine.tail ∧ P us' := by
        rcases TokenStream.next_of_holds hholds hread with
          ⟨-, rfl, hafter⟩ | ⟨m, rest, -, rfl, -, hafter, hsuffix, -⟩
        · exact ⟨[], hafter, hnil⟩
        · exact ⟨m.within, hafter, of_suffix htail hus hsuffix⟩
      rw [step_of_turn (read_of_next hread) hdollar hturn] at hstep
      cases turned with
      | take heap context =>
          cases hstep
          exact .cons htaken hothers
      | keep heap context =>
          cases hstep
          exact .cons ⟨us, hholds, hus⟩ hothers
      | enter path start target =>
          rcases map_eq_ok hstep with ⟨_, henter, heq⟩
          cases heq
          rcases enter_eq_ok_iff.1 henter with ⟨file, included, hopen, rfl⟩
          rcases openFile_eq_ok hopen with ⟨-, -, -, text, -, rfl⟩
          exact .cons ⟨[], TokenStream.holds_ofText text, hnil⟩ (.cons htaken hothers)
      | leave root =>
          simp only [Turn.outcome] at hstep
          split at hstep
          · cases hstep
          next w rest hwaiting =>
            rcases map_eq_ok hstep with ⟨_, hresume, heq⟩
            cases heq
            rcases resume_eq_ok hresume with ⟨heap, context, -, rfl⟩
            rw [hwaiting] at hothers
            rcases List.forall₂_cons_left_iff.1 hothers with ⟨left, rest', hw, hrest, rfl⟩
            exact .cons hw hrest

/-- Every state of a run has a trace. -/
theorem exists_traced {heap : Heap} {input : Input} (hstart : input.start env heap = .ok start)
    (h : Steps env start s) : ∃ left, Traced env start s left := by
  induction h with
  | refl => exact ⟨_, .start⟩
  | @tail t t' _ hstep ih =>
      rcases ih with ⟨left, htraced⟩
      have hlast : Steps env t t := .refl
      have hheld := held_of_traced (P := fun _ => True) hstart trivial (fun _ _ _ => trivial)
        (fun _ _ _ _ _ _ _ _ _ _ _ _ _ _ _ => trivial) htraced hlast
      rcases List.forall₂_cons_left_iff.1 hheld with ⟨mine, others, ⟨us, hholds, -⟩, -, rfl⟩
      rcases step_eq_ok hstep with
        ⟨token, after, hread, ⟨hl, doc, hexpand, -⟩ | ⟨hl, turned, hturn⟩⟩
      · rcases constant_of_expand hexpand with ⟨name, behind, word, value, hname, hword, hvalue, -⟩
        rcases TokenStream.spots_of_name hholds (read_eq_ok hread) hl hname hword with
          ⟨d, n, rest, rfl, rfl, rfl, -⟩
        exact ⟨_, .expand htraced hstep hl hword hvalue⟩
      · exact ⟨_, .turn htraced (read_eq_ok hread) hl hturn hstep⟩

/-- The name of each insertion stands in the text of the next. -/
def Embedded : List Insertion → Prop
  | [] => True
  | u :: outer => Insertion.Contain (.name u.name) u.index outer

theorem Embedded.tail {u : Insertion} {us : List Insertion} (h : Embedded (u :: us)) :
    Embedded us := by
  cases us with
  | nil => trivial
  | cons v us => exact h.2

/-- A token that stands in an insertion stands in all around it. -/
theorem contain_of_stands {m : Spot} (hm : m.Stands) (h : Embedded m.within) :
    Insertion.Contain m.token.lexeme m.index m.within := by
  cases hin : m.within with
  | nil => trivial
  | cons u outer =>
      rw [hin] at h
      exact ⟨hm u outer hin, h⟩

/-- The name of a constant that is expanded stands in the insertions that it is inside of. -/
theorem Embedded.cons {m : Spot} {word value : String} {origin : Position}
    (h : Embedded m.within) (hm : m.Stands) (hword : m.token.lexeme = .name word) :
    Embedded (⟨word, value, origin, m.index⟩ :: m.within) := by
  have hcontain := contain_of_stands hm h
  rw [hword] at hcontain
  exact hcontain

/-- Each insertion is of a constant of the table, and is mentioned by the next. -/
def Linked (table : String → Option String) : List Insertion → Prop
  | [] => True
  | u :: us => table u.name = some u.text ∧ (∀ v ∈ us.head?, Mentions v.text u.name) ∧
    Linked table us

theorem Linked.isChain {table : String → Option String} {us : List Insertion}
    (h : Linked table us) :
    (us.map Insertion.name).IsChain fun name other =>
      ∃ text, table other = some text ∧ Mentions text name := by
  induction us with
  | nil => exact .nil
  | cons u us ih =>
      cases us with
      | nil => exact .singleton _
      | cons v us =>
          exact .cons_cons ⟨v.text, h.2.2.1, h.2.1 v rfl⟩ (ih h.2.2)

theorem Linked.ne_none {table : String → Option String} {us : List Insertion}
    (h : Linked table us) : ∀ name ∈ us.map Insertion.name, table name ≠ none := by
  induction us with
  | nil => exact fun name hname => nomatch hname
  | cons u us ih =>
      intro name hname
      rcases List.mem_cons.1 hname with rfl | hname
      · rw [h.1]
        exact Option.some_ne_none _
      · exact ih h.2.2 name hname

/-- A constant that is expanded is mentioned by the one around it, if all that follows a `$` stands
    in the same text. -/
theorem Linked.cons {table : String → Option String} {longest : Nat}
    (htable : IsClosedTable table longest) {dollar name : Spot} {word value : String}
    {origin : Position} {index : Nat} (hd : dollar.Stands) (hn : name.Stands)
    (hprecedes : dollar.Precedes name) (hdollar : dollar.token.lexeme = .punct '$')
    (hword : name.token.lexeme = .name word) (hvalue : table word = some value)
    (hdin : Linked table dollar.within) (hnin : Linked table name.within) :
    Linked table (⟨word, value, origin, index⟩ :: name.within) := by
  refine ⟨hvalue, fun v hv => ?_, hnin⟩
  cases hin : dollar.within with
  | nil =>
      rw [hprecedes.bare hin] at hv
      cases hv
  | cons u outer =>
      rw [hin] at hdin
      have hat : wordAt u.text dollar.index = some (.punct '$') := hdollar ▸ hd u outer hin
      rcases htable.closed u.name u.text hdin.1 dollar.index hat with ⟨other, hother, -⟩
      rcases hprecedes.inside u outer hin (hother ▸ Option.some_ne_none _) with ⟨hsame, hnext⟩
      rw [hsame] at hv
      cases hv
      exact ⟨dollar.index, hat, by rw [← hnext, hn v outer hsame, hword]⟩

/-- Where a `$` and a name come next, the trace begins with them, and the layers behind the name are
    the insertions that it is inside of. What is true of all insertions is true of these. -/
theorem spots_of_held {dollar name : Token} {after behind : TokenStream} {word : String}
    {mine : List Spot} {others : List (List Spot)} (htail : ∀ u us, P (u :: us) → P us)
    (hdollar : s.document.tokens.next = .ok (dollar, after)) (hl : dollar.lexeme = .punct '$')
    (hname : after.next = .ok (name, behind)) (hword : name.lexeme = .name word)
    (hheld : List.Forall₂ (Held P) s.documents (mine :: others)) :
    ∃ d n rest, mine = d :: n :: rest ∧ d.token = dollar ∧ n.token = name ∧ d.Stands ∧
      n.Stands ∧ d.Precedes n ∧ P d.within ∧ P n.within ∧ behind.Holds n.within rest := by
  rcases List.forall₂_cons.1 hheld with ⟨⟨us, hholds, hus⟩, -⟩
  rcases TokenStream.spots_of_name hholds hdollar hl hname hword with
    ⟨d, n, rest, heq, hd, hn, hdstands, hnstands, hprecedes, hdin, hnin, hrest⟩
  exact ⟨d, n, rest, heq, hd, hn, hdstands, hnstands, hprecedes, of_suffix htail hus hdin,
    of_suffix htail hus hnin, hrest⟩

/-- Layers are nested insertions, at every point of reading.

    No document ever has more layers than the limit allows. What is left of all documents can be
    traced without layers; and where a `$` and a name come next, the trace begins with these two
    tokens, and behind them there is one layer for each insertion that the name is inside of, with
    what is left of it, and no other. So a constant of this name, if it is defined, is refused for
    its depth just if the name is inside of as many insertions as the limit says.

    If all constants on the way are those of a table in which every `$` has a name of the table
    behind it, and no more of them refer to one another in a row than the limit says, then every
    constant is expanded. -/
theorem expansions_exact {heap : Heap} {input : Input} (hstart : input.start env heap = .ok start)
    (hsteps : Steps env start s) :
    (∀ doc ∈ s.documents, doc.tokens.depth ≤ env.options.maxSubstitutionDepth) ∧
    (∃ left, Traced env start s left) ∧
    ∀ dollar after name behind word, s.document.tokens.next = .ok (dollar, after) →
      dollar.lexeme = .punct '$' → after.next = .ok (name, behind) → name.lexeme = .name word →
      (∀ left, Traced env start s left → ∃ d n rest others, left = (d :: n :: rest) :: others ∧
        d.token = dollar ∧ n.token = name ∧ Insertion.Contain name.lexeme n.index n.within ∧
        behind.Holds n.within rest ∧ behind.depth = n.within.length ∧
        ∀ value, s.document.context.scopes.constant? word = some value →
          (step env s =
              .error ⟨.substitutionTooDeep word, some (s.document.locate name.position)⟩ ↔
            n.within.length = env.options.maxSubstitutionDepth)) ∧
      ∀ table longest, IsClosedTable table longest →
        (∀ t, Steps env start t → Steps env t s → ∀ key text,
          t.document.context.scopes.constant? key = some text → table key = some text) →
        longest ≤ env.options.maxSubstitutionDepth →
        ∀ value, s.document.context.scopes.constant? word = some value →
          step env s = .ok (.inl { s with
            document := { s.document with tokens := behind.splice value dollar.position } }) := by
  have hshallow := shallow_of_steps hstart hsteps
  refine ⟨hshallow, exists_traced hstart hsteps, ?_⟩
  intro dollar after name behind word hdollar hl hname hword
  have hroom : behind.depth ≤ env.options.maxSubstitutionDepth :=
    Nat.le_trans (TokenStream.depth_next_le hname)
      (Nat.le_trans (TokenStream.depth_next_le hdollar) (hshallow _ List.mem_cons_self))
  refine ⟨fun left htraced => ?_, fun table longest htable hconstants hlongest value hvalue => ?_⟩
  · have hheld := held_of_traced (P := Embedded) hstart trivial (fun _ _ => Embedded.tail)
      (fun t d n word' value _ _ _ hn _ _ hword' _ _ hin => hin.cons hn hword') htraced .refl
    rcases List.forall₂_cons_left_iff.1 hheld with ⟨mine, others, hmine, hothers, rfl⟩
    rcases spots_of_held (fun _ _ => Embedded.tail) hdollar hl hname hword hheld with
      ⟨d, n, rest, rfl, hd, rfl, -, hn, -, -, hin, hrest⟩
    have hdepth := TokenStream.depth_of_holds hrest
    refine ⟨d, n, rest, others, rfl, hd, rfl, contain_of_stands hn hin, hrest, hdepth, ?_⟩
    intro value hvalue
    rw [step_of_name hdollar hl hname hword hvalue, ← hdepth]
    split
    next hfull => exact iff_of_true rfl (Nat.le_antisymm hroom hfull)
    next hless => exact iff_of_false nofun fun heq => hless (Nat.le_of_eq heq.symm)
  · rcases exists_traced hstart hsteps with ⟨left, htraced⟩
    have hheld := held_of_traced (P := Linked table) hstart trivial (fun _ _ h => h.2.2)
      (fun t d n word' value ht hlast hd hn hprecedes hdl hword' hvalue' hdin hnin =>
        .cons htable hd hn hprecedes hdl hword' (hconstants t ht hlast word' value hvalue') hdin
          hnin)
      htraced .refl
    rcases List.forall₂_cons_left_iff.1 hheld with ⟨mine, others, hmine, hothers, rfl⟩
    rcases spots_of_held (fun _ _ h => h.2.2) hdollar hl hname hword hheld with
      ⟨d, n, rest, rfl, rfl, rfl, hd, hn, hprecedes, hdin, hnin, hrest⟩
    have hdepth := TokenStream.depth_of_holds hrest
    -- The constant and those around it refer to one another, so there are not too many.
    have hlinked : Linked table (⟨word, value, d.token.position, n.index⟩ :: n.within) :=
      .cons htable hd hn hprecedes hl hword (hconstants s hsteps .refl word value hvalue) hdin hnin
    have hlength := htable.longest (List.map Insertion.name _).reverse
      (List.isChain_reverse.2 hlinked.isChain)
      fun key hkey => hlinked.ne_none key (List.mem_reverse.1 hkey)
    rw [List.length_reverse, List.length_map, List.length_cons] at hlength
    rw [step_of_name hdollar hl hname hword hvalue, if_neg (by omega)]

/-- Whether something is true of all states of a run, which has no more than so many steps. -/
def throughout (env : Environment) (p : State → Bool) : Nat → State → Bool
  | 0, _ => false
  | n + 1, s =>
    p s && match step env s with
      | .ok (.inl s') => throughout env p n s'
      | _ => true

theorem of_throughout {p : State → Bool} {n : Nat} (h : throughout env p n start = true)
    (hsteps : Steps env start s) : p s = true := by
  induction n generalizing start with
  | zero => cases h
  | succ n ih =>
      rw [throughout, Bool.and_eq_true] at h
      rcases Relation.ReflTransGen.cases_head hsteps with rfl | ⟨next, hnext, hrest⟩
      · exact h.1
      · rw [hnext] at h
        exact ih h.2 hrest

end

namespace Mentioning

/-- A text with two constants, one of which mentions the other. -/
def input : Input :=
  .text "Node \x7b [b: \"next\", a: \"$b\"], $a: Node \x7b\x7d \x7d"

def table (name : String) : Option String :=
  if name = "a" then some "$b" else if name = "b" then some "next" else none

/-- Whether all constants are those of the table. -/
def agrees (s : State) : Bool :=
  s.document.context.scopes.all.all fun scope =>
    scope.constants.entries.all fun entry => table entry.1 = some entry.2

theorem table_of_agrees {s : State} (h : agrees s = true) {key text : String}
    (hconstant : s.document.context.scopes.constant? key = some text) : table key = some text := by
  rcases List.exists_of_findSome?_eq_some hconstant with ⟨scope, hscope, hfind⟩
  have hentries := List.all_eq_true.1 (List.all_eq_true.1 h scope hscope)
  rcases List.lookup_eq_some_iff.1 hfind with ⟨before, after, heq, -⟩
  refine of_decide_eq_true (hentries (key, text) ?_)
  rw [heq]
  exact List.mem_append_right _ List.mem_cons_self

theorem table_eq_some {name text : String} (h : table name = some text) :
    (name = "a" ∧ text = "$b") ∨ (name = "b" ∧ text = "next") := by
  unfold table at h
  split at h
  next hname => exact .inl ⟨hname, (Option.some.inj h).symm⟩
  · split at h
    next hname => exact .inr ⟨hname, (Option.some.inj h).symm⟩
    · cases h

theorem readable_a : (Cursor.ofText "$b").readable =
    [⟨.punct '$', ⟨1, 1⟩⟩, ⟨.name "b", ⟨1, 2⟩⟩] := by
  decide +kernel

theorem readable_b : (Cursor.ofText "next").readable = [⟨.name "next", ⟨1, 1⟩⟩] := by
  decide +kernel

/-- The only `$` is the one in front of the second constant. -/
theorem eq_of_dollar {name text : String} {i : Nat} (h : table name = some text)
    (hi : wordAt text i = some (.punct '$')) : name = "a" ∧ text = "$b" ∧ i = 0 := by
  rcases table_eq_some h with ⟨rfl, rfl⟩ | ⟨rfl, rfl⟩
  · rw [wordAt, readable_a] at hi
    rcases i with _ | _ | i
    · exact ⟨rfl, rfl, rfl⟩
    · cases hi
    · cases hi
  · rw [wordAt, readable_b] at hi
    rcases i with _ | i
    · cases hi
    · cases hi

theorem isClosedTable : IsClosedTable table 2 where
  closed name text h i hi := by
    rcases eq_of_dollar h hi with ⟨rfl, rfl, rfl⟩
    exact ⟨"b", by rw [wordAt, readable_a]; rfl, nofun⟩
  longest names hchain _ := by
    rcases names with _ | ⟨first, _ | ⟨second, _ | ⟨third, rest⟩⟩⟩
    · exact Nat.zero_le _
    · exact Nat.le_succ 1
    · exact Nat.le_refl 2
    · rcases List.isChain_cons_cons.1 hchain with ⟨⟨text, htext, i, hi, hname⟩, hchain⟩
      rcases List.isChain_cons_cons.1 hchain with ⟨⟨text', htext', i', hi', -⟩, -⟩
      rcases eq_of_dollar htext hi with ⟨rfl, rfl, rfl⟩
      rcases eq_of_dollar htext' hi' with ⟨rfl, -⟩
      rw [wordAt, readable_a] at hname
      exact absurd hname (by decide)

/-- The `$` and the name that are read next, and what is left behind both. -/
def dollarName? (s : State) : Option (Token × TokenStream × Token × TokenStream) :=
  match s.document.tokens.next with
  | .error _ => none
  | .ok (dollar, after) =>
    match after.next with
    | .error _ => none
    | .ok (name, behind) => some (dollar, after, name, behind)

theorem dollarName?_eq_some {s : State} {dollar name : Token} {after behind : TokenStream}
    (h : dollarName? s = some (dollar, after, name, behind)) :
    s.document.tokens.next = .ok (dollar, after) ∧ after.next = .ok (name, behind) := by
  unfold dollarName? at h
  split at h
  · cases h
  next hdollar =>
    split at h
    · cases h
    next hname =>
      cases h
      exact ⟨hdollar, hname⟩

end Mentioning

/-- Behind the name of the constant that is mentioned there is one layer, for the constant that
    mentions it, and it is expanded. -/
theorem expansions_exact_mentioning :
    ∃ start s left d n u rest others,
      Mentioning.input.start (.nodes fun _ => .error "") .empty = .ok start ∧
      Steps (.nodes fun _ => .error "") start s ∧
      Traced (.nodes fun _ => .error "") start s left ∧ left = (d :: n :: rest) :: others ∧
      n.token.lexeme = .name "b" ∧ n.within = [u] ∧ wordAt u.text n.index = some (.name "b") ∧
      ∃ s', step (.nodes fun _ => .error "") s = .ok (.inl s') := by
  have hrun : (Mentioning.input.stateAfter? (.nodes fun _ => .error "") .empty 14).any (fun s =>
      (Mentioning.dollarName? s).any (fun next =>
        next.1.lexeme = .punct '$' ∧ next.2.2.1.lexeme = .name "b" ∧ next.2.2.2.depth = 1) ∧
      s.document.context.scopes.constant? "b" = some "next") = true := by
    decide +kernel
  rcases (Option.any_eq_true _ _).1 hrun with ⟨s, hs, hcheck⟩
  rcases of_decide_eq_true hcheck with ⟨hnext, hvalue⟩
  rcases (Option.any_eq_true _ _).1 hnext with ⟨⟨dollar, after, name, behind⟩, hread, hcheck⟩
  rcases of_decide_eq_true hcheck with ⟨hl, hword, hdepth⟩
  rcases Mentioning.dollarName?_eq_some hread with ⟨hdollar, hname⟩
  rcases Input.steps_of_stateAfter? hs with ⟨start, hstart, hsteps⟩
  have hagrees : throughout (.nodes fun _ => .error "") Mentioning.agrees 30 start = true := by
    have hall : (Mentioning.input.stateAfter? (.nodes fun _ => .error "") .empty 0).any
        (throughout (.nodes fun _ => .error "") Mentioning.agrees 30) = true := by
      decide +kernel
    rw [Input.stateAfter?, hstart] at hall
    exact hall
  rcases expansions_exact hstart hsteps with ⟨-, ⟨left, htraced⟩, hexact⟩
  -- The layers behind the name are the insertions it is inside of, and one layer was counted.
  rcases hexact dollar after name behind "b" hdollar hl hname hword with ⟨hlayers, htable⟩
  rcases hlayers left htraced with ⟨d, n, rest, others, rfl, -, rfl, hcontain, -, hlength, -⟩
  rw [hdepth] at hlength
  rcases List.length_eq_one_iff.1 hlength.symm with ⟨u, hu⟩
  rw [hu, hword] at hcontain
  have hstep := htable Mentioning.table 2 Mentioning.isClosedTable
    (fun t ht _ key text => Mentioning.table_of_agrees (of_throughout hagrees ht))
    (by decide) "next" hvalue
  exact ⟨start, s, _, d, n, u, rest, others, hstart, hsteps, htraced, rfl, hword, hu, hcontain.1,
    _, hstep⟩

end GraphText.Reader

import GraphText.Proofs.Reader.Scalars
import GraphText.Proofs.Reader.Typed
import GraphText.Proofs.Writer.Outline

/-!
# Reading what was written

A text that was written is read piece by piece: a header, the name of a field
and its colon, scalars, a reference, a brace. For every piece there is a lemma
that says where the reader is behind it. What comes next is left open in two
ways. The text goes on with anything that the piece does not run on into, and
the lemma is about what the run from there on leads to, whatever that is. So the
positions of the tokens, which nobody wants to calculate, are just any
positions, and a text is read by applying the lemmas of its pieces in order.

Blanks belong to the piece behind them.

## Main definitions

* `State.inText`: a state in the middle of a text.
* `ComesTo`: what a run leads to.
* `IsBlank`: nothing but blanks.
* `Scopes.declare`: the scopes behind an object.

## Theorems

* `comesTo_take`, `comesTo_keep`: one token.
* `comesTo_header`, `comesTo_use`, `comesTo_close`, `comesTo_name`: the pieces of objects.
* `comesTo_scalars`, `comesTo_list`: scalars without and with brackets.
-/

namespace GraphText

/-- The scopes behind an object of this name, if it has one. -/
def Scopes.declare (s : Scopes) (name : Option String) (r : Ref) : Scopes :=
  match name with
  | some name => s.define name r
  | none => s

/-- Nothing but blanks. -/
def IsBlank (cs : List Char) : Prop :=
  ∀ c ∈ cs, Trivia.isSpace c = true

theorem isBlank_nil : IsBlank [] := fun _ hc => nomatch hc

theorem isBlank_cons {c : Char} {cs : List Char} (hc : Trivia.isSpace c = true) (h : IsBlank cs) :
    IsBlank (c :: cs) := by
  intro x hx
  rcases List.mem_cons.1 hx with rfl | hx
  · exact hc
  · exact h x hx

theorem isBlank_append {cs ds : List Char} (hc : IsBlank cs) (hd : IsBlank ds) :
    IsBlank (cs ++ ds) := by
  intro x hx
  rcases List.mem_append.1 hx with hx | hx
  · exact hc x hx
  · exact hd x hx

theorem isBlank_indentation (depth : Nat) : IsBlank (Writer.indentation depth).toList := by
  intro c hc
  rw [Writer.indentation, String.toList_ofList] at hc
  rw [List.eq_of_mem_replicate hc]
  rfl

namespace Reader

/-- A state in which this is left of a text that is not a file. -/
def State.inText (env : Environment) (heap : Heap) (c : Context) (rest : List Char)
    (p : Position) : State :=
  { heap
    dependencies := []
    document :=
      { source := Location.stringSource
        directory := env.options.textDirectory
        tokens := { base := ⟨rest, p⟩ }
        context := c } }

/-- Some state of the run from here has a property. -/
def ComesTo (env : Environment) (s : State) (P : State → Prop) : Prop :=
  ∃ s', Steps env s s' ∧ P s'

section

variable {env : Environment} {heap : Heap} {c : Context} {cs rest blanks : List Char}
  {p : Position} {l : Lexeme} {P : State → Prop} {target : Target}

theorem ComesTo.step {s s' : State} (hstep : step env s = .ok (.inl s')) (h : ComesTo env s' P) :
    ComesTo env s P := by
  rcases h with ⟨last, hsteps, hlast⟩
  exact ⟨last, hsteps.head hstep, hlast⟩

/-- The next token of a text. -/
theorem exists_token (env : Environment) (hstarts : Lexeme.Starts cs l rest) (p : Position) :
    ∃ q q', ∀ heap c, (State.inText env heap c cs p).document.read
      (State.inText env heap c cs p).document.tokens =
        .ok (⟨l, q⟩, { base := ⟨rest, q'⟩ }) := by
  rcases Cursor.next_of_starts hstarts p with ⟨q, q', hnext⟩
  refine ⟨q, q', fun heap c => ?_⟩
  have hread : (State.inText env heap c cs p).document.tokens.next =
      .ok (⟨l, q⟩, { base := ⟨rest, q'⟩ }) := by
    unfold TokenStream.next State.inText
    rw [TokenStream.nextFrom]
    simp only [hnext]
  unfold Document.read
  rw [hread]
  rfl

/-- A token that is taken. -/
theorem comesTo_take (hstarts : Lexeme.Starts cs l rest) (hl : l ≠ .punct '$')
    (h : ∀ q, ∃ heap' c',
      turn env.registry Location.stringSource heap c ⟨l, q⟩ = .ok (.take heap' c') ∧
        ∀ p', ComesTo env (.inText env heap' c' rest p') P) :
    ComesTo env (.inText env heap c cs p) P := by
  rcases exists_token env hstarts p with ⟨q, q', hread⟩
  rcases h q with ⟨heap', c', hturn, hrest⟩
  exact (hrest q').step (step_of_turn (hread heap c) hl hturn)

/-- A token that is kept. -/
theorem comesTo_keep (hstarts : Lexeme.Starts cs l rest) (hl : l ≠ .punct '$')
    (h : ∀ q, ∃ heap' c',
      turn env.registry Location.stringSource heap c ⟨l, q⟩ = .ok (.keep heap' c') ∧
        ComesTo env (.inText env heap' c' cs p) P) :
    ComesTo env (.inText env heap c cs p) P := by
  rcases exists_token env hstarts p with ⟨q, q', hread⟩
  rcases h q with ⟨heap', c', hturn, hrest⟩
  exact hrest.step (step_of_turn (hread heap c) hl hturn)

/-- A field of the innermost body, up to its colon. -/
theorem comesTo_name {body : Body} {outer : List Body} {field : FieldSpec}
    (hbodies : c.bodies = body :: outer) (hfield : body.spec.find? field.name = some field)
    (hspelled : field.IsSpelled) (hblanks : IsBlank blanks)
    (h : ∀ p', ComesTo env (.inText env heap (c.enter (.fieldValue field)) rest p') P) :
    ComesTo env (.inText env heap (c.enter .item) (blanks ++ (field.name.toList ++ ':' :: rest)) p)
      P := by
  rcases hspelled with ⟨hword, hconstants, htemplates⟩
  refine comesTo_take ((Lexeme.starts_name hword (stops_cons rfl rest)).blanks hblanks) nofun
    fun q => ⟨heap, c.enter (.fieldColon field), ?_, fun p' => ?_⟩
  · have hitem : beginField heap (c.enter .item) field.name ⟨.name field.name, q⟩ =
        .ok (.take heap (c.enter (.fieldColon field))) := by
      unfold beginField
      simp only [Context.enter, hbodies, hfield]
    -- The name of a block is no name of a field.
    exact (if_neg hconstants).trans ((if_neg htemplates).trans hitem)
  · exact comesTo_take (Lexeme.starts_punct rfl rest) (by decide) fun q => ⟨_, _, rfl, h⟩

/-- The header of an object, up to the brace of its body. -/
theorem comesTo_header {spec : ObjectSpec} {name : Option String}
    (hspec : env.registry.find? spec.typeName = some spec) (hspelled : spec.IsSpelled)
    (hconcrete : spec.isAbstract = false) (hblanks : IsBlank blanks)
    (h : ∀ start p', ComesTo env
      (.inText env (heap.alloc (newObject Location.stringSource spec start (name.getD "")))
        (c.openBody { object := heap.size, spec, start, target }) rest p') P) :
    ComesTo env (.inText env heap (c.enter (.object target))
      (blanks ++ ((Writer.header spec.typeName name).toList ++ ' ' :: '\x7b' :: rest)) p) P := by
  rcases hspelled with ⟨hword, hclone, huse⟩
  have hbegin : ∀ q, turn env.registry Location.stringSource heap (c.enter (.object target))
      ⟨.name spec.typeName, q⟩ = .ok (.take heap (c.enter (.typed spec q target))) := by
    intro q
    have hfind : beginObject env.registry heap (c.enter (.object target)) target
        ⟨.name spec.typeName, q⟩ = .ok (.take heap (c.enter (.typed spec q target))) := by
      unfold beginObject
      simp only [if_neg hclone, if_neg huse, hspec]
      rfl
    exact hfind
  -- A body is opened in the same way with a name and without.
  have hopen : ∀ mode start name, openObject Location.stringSource heap (c.enter mode) spec start
      name target = .ok (.take (heap.alloc (newObject Location.stringSource spec start name))
        (c.openBody { object := heap.size, spec, start, target })) := by
    intro mode start name
    exact openObject_eq_ok_iff.2 ⟨hconcrete, rfl⟩
  cases name with
  | none =>
      refine comesTo_take ((Lexeme.starts_name hword (stops_cons rfl _)).blanks hblanks) nofun
        fun start => ⟨_, _, hbegin start, fun p₁ => ?_⟩
      refine comesTo_take ((Lexeme.starts_punct rfl rest).blank rfl) (by decide)
        fun q => ⟨_, _, hopen _ start "", fun p' => h start p'⟩
  | some name =>
      have htext : (Writer.header spec.typeName (some name)).toList ++ ' ' :: '\x7b' :: rest =
          spec.typeName.toList ++ (' ' :: (Text.Quoted.text name.toList ++ (' ' :: '\x7b' ::
            rest))) := by
        simp [Writer.header, Writer.quote, String.toList_append]
      rw [htext]
      refine comesTo_take ((Lexeme.starts_name hword (stops_cons rfl _)).blanks hblanks) nofun
        fun start => ⟨_, _, hbegin start, fun p₁ => ?_⟩
      refine comesTo_take ((Lexeme.starts_quoted name _).blank rfl) nofun
        fun q => ⟨_, _, rfl, fun p₂ => ?_⟩
      refine comesTo_take ((Lexeme.starts_punct rfl rest).blank rfl) (by decide)
        fun q => ⟨_, _, hopen _ start name, fun p' => h start p'⟩

theorem isWord_use : Lexeme.IsWord "USE" :=
  ⟨'U', ['S', 'E'], rfl, rfl, List.all_eq_true.1 rfl⟩

/-- A reference by name. -/
theorem comesTo_use {heap' : Heap} {c' : Context} {name : String} {r : Ref}
    (hr : c.scopes.resolve? name = some r)
    (hdeliver : deliver env.registry heap c target r = .ok (heap', c')) (hblanks : IsBlank blanks)
    (h : ∀ p', ComesTo env (.inText env heap' c' rest p') P) :
    ComesTo env (.inText env heap (c.enter (.object target))
      (blanks ++ (("USE " ++ Writer.quote name).toList ++ rest)) p) P := by
  have htext : ("USE " ++ Writer.quote name).toList ++ rest =
      "USE".toList ++ (' ' :: (Text.Quoted.text name.toList ++ rest)) := by
    simp [Writer.quote, String.toList_append]
  rw [htext]
  refine comesTo_take ((Lexeme.starts_name isWord_use (stops_cons rfl _)).blanks hblanks) nofun
    fun q => ⟨_, _, rfl, fun p₁ => ?_⟩
  refine comesTo_take ((Lexeme.starts_quoted name rest).blank rfl) nofun
    fun q => ⟨heap', c', ?_, h⟩
  have hresolve : resolve (c.enter (.used target)) name q = .ok r := by
    unfold resolve
    simp only [Context.enter, hr]
  have hgo : (resolve (c.enter (.used target)) name q >>= fun r =>
      takeWith (deliver env.registry heap (c.enter (.used target)) target r)) =
        .ok (.take heap' c') := by
    simp only [hresolve, bind, Except.bind, (deliver_enter _).trans hdeliver]
    rfl
  exact hgo

/-- Any object but a template is declared by the name it has. -/
theorem declare_eq {r : Ref} {start : Position} (htarget : target ≠ .template) :
    declare heap c target r start =
      .ok { c with scopes := c.scopes.declare (heap.get r).name r } := by
  unfold declare Scopes.declare
  cases (heap.get r).name with
  | none => cases target <;> first | rfl | exact absurd rfl htarget
  | some name => cases target <;> first | rfl | exact absurd rfl htarget

/-- The brace behind the body of an object that is no template. -/
theorem comesTo_close {heap' : Heap} {c' : Context} {body : Body} {outer : List Body}
    (hbodies : c.bodies = body :: outer) (htarget : body.target ≠ .template)
    (hdeliver : deliver env.registry heap
      { c with
        scopes := c.scopes.close.declare (heap.get body.object).name body.object
        bodies := outer } body.target body.object = .ok (heap', c'))
    (hblanks : IsBlank blanks) (h : ∀ p', ComesTo env (.inText env heap' c' rest p') P) :
    ComesTo env (.inText env heap (c.enter .item) (blanks ++ '\x7d' :: rest) p) P := by
  refine comesTo_take ((Lexeme.starts_punct rfl rest).blanks hblanks) (by decide)
    fun q => ⟨heap', c', ?_, h⟩
  have hclose : closeBody env.registry heap (c.enter .item) = .ok (.take heap' c') := by
    unfold closeBody complete
    simp only [Context.enter, hbodies, declare_eq htarget, bind, Except.bind]
    exact congrArg takeWith ((deliver_enter .item).trans hdeliver)
  exact hclose

/-- Scalars side by side, of which the first is looked at in any mode for a scalar. -/
theorem comesTo_scalars {field : FieldSpec} {type : ScalarType} {mode : Mode}
    {start : Position → Position} {v : Value} {vs before : List Value}
    (hturn : ∀ l q, (∀ x, l ≠ .punct x) →
      turn env.registry Location.stringSource heap (c.enter mode) ⟨l, q⟩ =
        takeScalar heap (c.enter mode) field type (start q) vs.length before ⟨l, q⟩)
    (htypes : ∀ u ∈ v :: vs, u.type = .scalar type ∧ u.ReadsBack)
    (hname : Stops Lexeme.isNameRest rest) (hnumber : Stops Lexeme.isNumberRest rest)
    (hblanks : IsBlank blanks)
    (h : ∀ q, ∃ heap' c', storeField heap c field q (before ++ v :: vs) = .ok (heap', c') ∧
      ∀ p', ComesTo env (.inText env heap' c' rest p') P) :
    ComesTo env (.inText env heap (c.enter mode)
      (blanks ++ ((String.intercalate " " ((v :: vs).map Value.text)).toList ++ rest)) p) P := by
  -- The first scalar is looked at in the mode that the field is in, and every other in the mode for
  -- the rest of the scalars; so the induction is over the scalars in any mode that takes the next
  -- one.
  induction vs generalizing v before mode start blanks p with
  | nil =>
      rcases htypes v List.mem_cons_self with ⟨htype, hback⟩
      rcases starts_scalar htype hback hname hnumber with ⟨l, hstarts, hl, hread⟩
      rw [List.map_cons, List.map_nil, String.intercalate_singleton]
      refine comesTo_take (hstarts.blanks hblanks) (hl '$') fun q => ?_
      rcases h (start q) with ⟨heap', c', hstore, hrest⟩
      refine ⟨heap', c', ?_, hrest⟩
      rw [hturn l q hl]
      unfold takeScalar
      have hgiven := (storeField_enter mode _ _).trans hstore
      simp only [hread, bind, Except.bind, List.length_nil, hgiven]
      rfl
  | cons w vs ih =>
      rcases htypes v List.mem_cons_self with ⟨htype, hback⟩
      have htext : (String.intercalate " " ((v :: w :: vs).map Value.text)).toList ++ rest =
          v.text.toList ++ ' ' :: ((String.intercalate " " ((w :: vs).map Value.text)).toList ++
            rest) := by
        simp [String.intercalate_cons_cons, String.toList_append]
      have hspace : ∀ cs, Stops Lexeme.isNameRest (' ' :: cs) ∧
          Stops Lexeme.isNumberRest (' ' :: cs) :=
        fun cs => ⟨stops_cons rfl cs, stops_cons rfl cs⟩
      rcases starts_scalar htype hback (hspace _).1 (hspace _).2 with ⟨l, hstarts, hl, hread⟩
      rw [htext]
      refine comesTo_take (hstarts.blanks hblanks) (hl '$') fun q =>
        ⟨heap, c.enter (.scalar field type (start q) vs.length (before ++ [v])), ?_, fun p₁ => ?_⟩
      · rw [hturn l q hl]
        unfold takeScalar
        rw [hread]
        rfl
      · have hnext : ∀ l q', (∀ x, l ≠ .punct x) →
            turn env.registry Location.stringSource heap
              (c.enter (.scalar field type (start q) vs.length (before ++ [v]))) ⟨l, q'⟩ =
              takeScalar heap (c.enter (.scalar field type (start q) vs.length (before ++ [v])))
                field type (start q) vs.length (before ++ [v]) ⟨l, q'⟩ := fun _ _ _ => rfl
        refine ih hnext (fun u hu => htypes u (List.mem_cons_of_mem _ hu))
          (isBlank_cons rfl isBlank_nil) ?_
        simpa using h

/-- The bracket behind the scalars of a list. -/
theorem comesTo_listEnd {field : FieldSpec} {type : ScalarType} {start : Position}
    {vs : List Value} {heap' : Heap} {c' : Context}
    (hstore : storeField heap c field start vs = .ok (heap', c')) (hblanks : IsBlank blanks)
    (h : ∀ p', ComesTo env (.inText env heap' c' rest p') P) :
    ComesTo env (.inText env heap (c.enter (.listItem field type start vs))
      (blanks ++ ']' :: rest) p) P := by
  refine comesTo_take ((Lexeme.starts_punct rfl rest).blanks hblanks) (by decide)
    fun q => ⟨heap', c', ?_, h⟩
  exact congrArg takeWith ((storeField_enter _ _ _).trans hstore)

/-- The scalars of a list, up to its closing bracket. -/
theorem comesTo_list {field : FieldSpec} {type : ScalarType} {start : Position}
    {vs before : List Value} (htypes : ∀ u ∈ vs, u.type = .scalar type ∧ u.ReadsBack)
    (hblanks : IsBlank blanks)
    (h : ∀ blanks p', IsBlank blanks → ComesTo env
      (.inText env heap (c.enter (.listItem field type start (before ++ vs)))
        (blanks ++ ']' :: rest) p') P) :
    ComesTo env (.inText env heap (c.enter (.listItem field type start before))
      (blanks ++ ((String.intercalate ", " (vs.map Value.text)).toList ++ ']' :: rest)) p) P := by
  -- The separator is taken behind a scalar, and the bracket is looked at twice: once where a
  -- separator may stand, and once where a scalar may.
  induction vs generalizing before blanks p with
  | nil => simpa using h blanks p hblanks
  | cons v vs ih =>
      rcases htypes v List.mem_cons_self with ⟨htype, hback⟩
      have hitem : ∀ l q, (∀ x, l ≠ .punct x) → readScalar type ⟨l, q⟩ = .ok v →
          turn env.registry Location.stringSource heap
            (c.enter (.listItem field type start before)) ⟨l, q⟩ =
              .ok (.take heap (c.enter (.listEnd field type start (before ++ [v])))) := by
        intro l q hl hread
        have hgo : (readScalar type ⟨l, q⟩ >>= fun v => (.ok (.take heap
            (c.enter (.listEnd field type start (before ++ [v])))) : Result Turn)) =
              .ok (.take heap (c.enter (.listEnd field type start (before ++ [v])))) := by
          rw [hread]
          rfl
        exact (if_neg (hl ']')).trans hgo
      cases vs with
      | nil =>
          have hstop : Stops Lexeme.isNameRest (']' :: rest) ∧
              Stops Lexeme.isNumberRest (']' :: rest) :=
            ⟨stops_cons rfl rest, stops_cons rfl rest⟩
          rcases starts_scalar htype hback hstop.1 hstop.2 with ⟨l, hstarts, hl, hread⟩
          rw [List.map_cons, List.map_nil, String.intercalate_singleton]
          refine comesTo_take (hstarts.blanks hblanks) (hl '$')
            fun q => ⟨_, _, hitem l q hl (hread q), fun p₁ => ?_⟩
          refine comesTo_keep (Lexeme.starts_punct rfl rest) (by decide)
            fun q => ⟨_, _, rfl, ?_⟩
          exact h [] p₁ isBlank_nil
      | cons w vs =>
          have htext : (String.intercalate ", " ((v :: w :: vs).map Value.text)).toList ++
              ']' :: rest = v.text.toList ++ ',' :: ' ' ::
                ((String.intercalate ", " ((w :: vs).map Value.text)).toList ++ ']' :: rest) := by
            simp [String.intercalate_cons_cons, String.toList_append]
          have hstop : ∀ cs, Stops Lexeme.isNameRest (',' :: cs) ∧
              Stops Lexeme.isNumberRest (',' :: cs) :=
            fun cs => ⟨stops_cons rfl cs, stops_cons rfl cs⟩
          rcases starts_scalar htype hback (hstop _).1 (hstop _).2 with ⟨l, hstarts, hl, hread⟩
          rw [htext]
          refine comesTo_take (hstarts.blanks hblanks) (hl '$')
            fun q => ⟨_, _, hitem l q hl (hread q), fun p₁ => ?_⟩
          refine comesTo_take (Lexeme.starts_punct rfl _) (by decide)
            fun q => ⟨_, _, rfl, fun p₂ => ?_⟩
          refine ih (fun u hu => htypes u (List.mem_cons_of_mem _ hu))
            (isBlank_cons rfl isBlank_nil) ?_
          simpa using h

end

end Reader

end GraphText

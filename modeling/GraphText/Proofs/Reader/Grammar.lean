import GraphText.Proofs.Reader.Termination
import GraphText.Proofs.Reader.Values

/-!
# Reading texts of the grammar

A text of the grammar in which all types, fields, scalars and names are right is
read, provided that its commas are where the reader looks for them. This is not
where the documentation has them. The reader goes by one rule for everything in
braces and brackets: a comma behind every item, which only the last may lack. In
the documented grammar blocks have no comma behind them, and constants and
templates may go without. A text with constants and a field, and no comma between
them, is one of the documented grammar, and the reader fails at the field.

The induction is on the phrase. All cases but one are about single forms and were
settled before; what is left is a row, with its first item, a comma or none, and
the rest.

## Main definitions

* `lexemes?`: the words of a text.

## Theorems

* `reads_cons`: an item of a row and the rest.
* `reads`: phrases are read as their commas say.
* `readText_iff_obeys`: so are texts.
* `not_read_unseparated`: a text of the documented grammar that is not read.
-/

namespace GraphText.Reader

section

variable {env : Environment} {base : Nat} {known known' : Scopes} {heap heap' : Heap}
  {scopes : Scopes} {bodies : List Body} {mode : Mode} {target : Target} {r n : Ref}
  {d : Cursor} {l : Lexeme} {rest : List Lexeme} {ok : Bool} {name : String} {spec : ObjectSpec}

theorem reads_nil {row : Row} : (Phrase.nil : Phrase (.list row)).Reads env base := by
  intro demand known known' heap scopes bodies mode d rest ok hcheck hbegins hfollows h hnext
  cases hcheck
  refine hnext heap scopes bodies mode d (.refl heap) ?_ h
  cases row with
  | body | fields => exact ⟨hbegins.1, .inl rfl⟩
  | constants => exact ⟨hbegins, rfl⟩
  | templates => exact ⟨hbegins.1, rfl⟩
  | objects =>
      rcases hbegins with ⟨field, start, before, rfl, -⟩
      exact ⟨⟨field, start, before, before, rfl, rfl⟩, rfl⟩
  | scalars =>
      rcases hbegins with ⟨field, start, before, rfl⟩
      exact ⟨⟨field, demand, start, before, before, rfl, rfl⟩, rfl⟩

theorem reads_fields {p : Phrase (.list .fields)} (hp : p.Reads env base) :
    (Phrase.fields p).Reads env base := by
  intro spec known known' heap scopes bodies mode d rest ok hcheck hbegins hfollows h hnext
  rcases hbegins with ⟨rfl, body, outer, rfl, hspec, -⟩
  exact hp hcheck ⟨rfl, body, outer, rfl, hspec⟩ hfollows h hnext

/-- What stands behind an item of a row does not belong to the item. -/
theorem follows_item {reg : Registry} {row : Row} {p : Phrase (.list row)}
    {demand : (Symbol.list row).Demand} (hcheck : p.check reg demand known = some known')
    (comma : Bool) (behind : List Lexeme) :
    (Symbol.part row.item).Follows ((if comma then [.punct ','] else []) ++
      (p.lexemes ++ .punct row.close :: behind)) := by
  intro l hl
  -- Behind an item without a comma come the other items, or the bracket if there are none.
  cases comma with
  | true =>
      cases hl
      exact ⟨by decide, by decide, by decide⟩
  | false =>
      have hhead := head_of_rest hcheck (.punct row.close :: behind)
      split at hhead
      · have hclosed : (p.lexemes ++ .punct row.close :: behind).head? = some l := hl
        rw [hhead] at hclosed
        cases hclosed
        cases row <;> exact ⟨by decide, by decide, by decide⟩
      · rcases hhead with ⟨l', ls, hlexemes, hopens⟩
        have hopened : (p.lexemes ++ .punct row.close :: behind).head? = some l := hl
        rw [hlexemes] at hopened
        cases hopened
        refine ⟨?_, ?_, ?_⟩ <;>
        · rintro rfl
          have := hopens _ rfl
          contradiction

/-- Behind an item of a row: the comma, and the rest of the row. -/
theorem Ready.row {row : Row} {p : Phrase (.list row)} (hp : p.Reads env base)
    {demand : (Symbol.list row).Demand} {mode' : Mode} {comma : Bool} {behind : List Lexeme}
    (h : Ready env base known heap ⟨scopes, bodies, mode⟩ d
      ((if comma then [.punct ','] else []) ++ (p.lexemes ++ .punct row.close :: behind)))
    (hcheck : p.check env.registry demand known = some known')
    (hbegins : (Symbol.list row).Begins demand bodies mode')
    (hturn : ∀ token, turn env.registry Location.stringSource heap ⟨scopes, bodies, mode⟩ token =
      takeSeparator heap ⟨scopes, bodies, mode⟩ row.close mode' token)
    (hnext : ∀ heap' scopes' bodies' mode'' d', heap.KeepsHeads heap' →
      (Symbol.list row).Ends bodies mode' bodies' mode'' →
      Ready env base known' heap' ⟨scopes', bodies', mode''⟩ d' (.punct row.close :: behind) →
      accepts env heap' ⟨scopes', bodies', mode''⟩ d' = ok) :
    accepts env heap ⟨scopes, bodies, mode⟩ d =
      (Commas.between.allow comma p.isEmpty && (p.obeys Row.required && ok)) :=
  h.separator row.close_eq hturn (head_of_rest hcheck _) fun _ h' =>
    hp hcheck hbegins ⟨behind, rfl⟩ h' hnext

/-- In front of a template, and of any object of a list, the reader turns to the object. -/
theorem turn_template {reg : Registry} (heap : Heap) (token : Token)
    (htoken : token.lexeme ≠ .punct ']') :
    turn reg Location.stringSource heap ⟨scopes, bodies, .template⟩ token =
      .ok (.keep heap ⟨scopes, bodies, .object .template⟩) := by
  simp only [turn, if_neg htoken]
  rfl

theorem turn_element {reg : Registry} {field : FieldSpec} {start : Position} {before : List Ref}
    (heap : Heap) (token : Token) (htoken : token.lexeme ≠ .punct ']') :
    turn reg Location.stringSource heap ⟨scopes, bodies, .element field start before⟩ token =
      .ok (.keep heap ⟨scopes, bodies,
        .object (.element field start token.position before)⟩) := by
  simp only [turn, if_neg htoken]
  rfl

/-- An item of a row, perhaps a comma, and the rest. The item stands in another mode than the row
    where it is an object, and leads on to another one where the row counts what it has. -/
theorem reads_cons {row : Row} {first : Phrase (.part row.item)} {p : Phrase (.list row)}
    (hfirst : first.Reads env base) (hp : p.Reads env base) (comma : Bool) :
    (Phrase.cons first comma p).Reads env base := by
  intro demand known known' heap scopes bodies mode d rest ok hcheck hbegins hfollows h hnext
  rcases hfollows with ⟨behind, rfl⟩
  rcases Option.bind_eq_some_iff.1 hcheck with ⟨known₁, hcheck₁, hcheck₂⟩
  have hfollows := follows_item hcheck₂ comma behind
  have h : Ready env base known heap ⟨scopes, bodies, mode⟩ d
      (first.lexemes ++ ((if comma then [.punct ','] else []) ++
        (p.lexemes ++ .punct row.close :: behind))) := by
    simpa [Phrase.lexemes] using h
  have hgoal : accepts env heap ⟨scopes, bodies, mode⟩ d = (first.obeys Row.required &&
      (Commas.between.allow comma p.isEmpty && (p.obeys Row.required && ok))) := by
    cases row with
    | body =>
        rcases hbegins with ⟨rfl, body, outer, rfl, hspec, hseen⟩
        refine hfirst hcheck₁ ⟨rfl, body, outer, rfl, hseen⟩ hfollows h ?_
        rintro heap₁ scopes₁ _ _ d₁ hkeeps ⟨rfl, rfl⟩ h₁
        exact h₁.row hp hcheck₂ ⟨rfl, body, outer, rfl, hspec, hseen⟩ (fun _ => rfl)
          fun heap' scopes' _ _ d' hkeeps' hends h' =>
            hnext heap' scopes' _ _ d' (hkeeps.trans hkeeps') hends h'
    | fields =>
        rcases hbegins with ⟨rfl, body, outer, rfl, hspec⟩
        refine hfirst hcheck₁ ⟨rfl, body, outer, rfl, hspec⟩ hfollows h ?_
        rintro heap₁ scopes₁ _ _ d₁ hkeeps ⟨rfl, rfl⟩ h₁
        refine h₁.row hp hcheck₂ ⟨rfl, { body with seenField := true }, outer, rfl, hspec⟩
          (fun _ => rfl) ?_
        -- There has been a field, whether more follow or not.
        rintro heap' scopes' bodies' _ d' hkeeps' ⟨rfl, hbodies⟩ h'
        have hmarked : bodies' = marked (body :: outer) := by
          rcases hbodies with rfl | rfl <;> rfl
        exact hnext heap' scopes' _ _ d' (hkeeps.trans hkeeps') ⟨rfl, .inr hmarked⟩ h'
    | constants =>
        cases hbegins
        refine hfirst hcheck₁ rfl hfollows h ?_
        rintro heap₁ scopes₁ _ _ d₁ hkeeps ⟨rfl, rfl⟩ h₁
        exact h₁.row hp hcheck₂ rfl (fun _ => rfl) fun heap' scopes' _ _ d' hkeeps' hends h' =>
          hnext heap' scopes' _ _ d' (hkeeps.trans hkeeps') hends h'
    | templates =>
        rcases hbegins with ⟨rfl, rfl⟩
        refine h.enterObject hcheck₁ (fun _ => .template) (turn_template heap) fun q h₀ => ?_
        refine hfirst hcheck₁ ⟨.template, rfl, rfl⟩ hfollows h₀ ?_
        rintro heap₁ scopes₁ _ _ d₁ hkeeps ⟨target, r, htarget, rfl, rfl⟩ h₁
        cases htarget
        exact h₁.row hp hcheck₂ ⟨rfl, rfl⟩ (fun _ => rfl)
          fun heap' scopes' _ _ d' hkeeps' hends h' =>
            hnext heap' scopes' _ _ d' (hkeeps.trans hkeeps') hends h'
    | objects =>
        rcases hbegins with ⟨field, start, before, rfl, rfl⟩
        refine h.enterObject hcheck₁ (.element field start · before) (turn_element heap)
          fun q h₀ => ?_
        refine hfirst hcheck₁ ⟨.element field start q before, rfl, rfl⟩ hfollows h₀ ?_
        rintro heap₁ scopes₁ _ _ d₁ hkeeps ⟨target, r, htarget, rfl, rfl⟩ h₁
        cases htarget
        refine h₁.row hp hcheck₂ ⟨field, start, before ++ [r], rfl, rfl⟩ (fun _ => rfl) ?_
        rintro heap' scopes' _ _ d' hkeeps' ⟨⟨_, _, _, before', hmode, rfl⟩, rfl⟩ h'
        cases hmode
        exact hnext heap' scopes' _ _ d' (hkeeps.trans hkeeps')
          ⟨⟨field, start, before, before', rfl, rfl⟩, rfl⟩ h'
    | scalars =>
        rcases hbegins with ⟨field, start, before, rfl⟩
        refine hfirst hcheck₁ ⟨field, start, before, rfl⟩ hfollows h ?_
        rintro heap₁ scopes₁ _ _ d₁ hkeeps ⟨⟨_, _, _, _, before', hmode, rfl⟩, rfl⟩ h₁
        cases hmode
        refine h₁.row hp hcheck₂ ⟨field, start, before', rfl⟩ (fun _ => rfl) ?_
        rintro heap' scopes' _ _ d' hkeeps' ⟨⟨_, _, _, _, before'', hmode, rfl⟩, rfl⟩ h'
        cases hmode
        exact hnext heap' scopes' _ _ d' (hkeeps.trans hkeeps')
          ⟨⟨field, _, start, before, before'', rfl, rfl⟩, rfl⟩ h'
  -- The commas of a row are those of the item, the one behind it and those of the rest.
  rw [Phrase.obeys, Bool.and_assoc, Bool.and_assoc]
  exact hgoal

/-- A phrase is read as its commas say, if it passes the check. -/
theorem reads (env : Environment) (base : Nat) {a : Symbol} (p : Phrase a) : p.Reads env base := by
  induction p with
  | typed type name body hbody => exact reads_typed hbody type name
  | mention type name semicolon => exact reads_mention type name semicolon
  | use name => exact reads_use name
  | quoted name => exact reads_quoted name
  | bare name => exact reads_bare name
  | clone template name => exact reads_clone template name
  | cloneWith template name body hbody => exact reads_cloneWith hbody template name
  | nil => exact reads_nil
  | cons first comma rest hfirst hrest => exact reads_cons hfirst hrest comma
  | fields rest hrest => exact reads_fields hrest
  | constants keyword items hitems => exact reads_constants hitems keyword
  | templates items hitems => exact reads_templates hitems
  | field name value hvalue => exact reads_field hvalue name
  | constant name value => exact reads_constant name value
  | scalars words => exact reads_scalars words
  | list items hitems => exact reads_list hitems
  | object inner hinner => exact reads_object hinner
  | objects items hitems => exact reads_objects hitems
  | scalar word => exact reads_scalar word

/-- Behind the object of a document there is nothing more to read. -/
theorem Ready.finish (h : Ready env base known heap ⟨scopes, bodies, .finished r⟩ d []) :
    accepts env heap ⟨scopes, bodies, .finished r⟩ d = true := by
  rcases h.read nofun with ⟨token, d', hread, heof, hdollar, -⟩
  have hend : token.lexeme = .eof := heof
  have hlast : step env (.inText env heap ⟨scopes, bodies, .finished r⟩ d.rest d.position) =
      .ok (.inr ⟨heap, r, []⟩) := by
    simp only [step, hread, bind, Except.bind, if_neg hdollar]
    simp only [State.inText, turn, if_pos hend]
    rfl
  rw [accepts, run_of_last hlast]
  rfl

end

/-- The words of a text, if there is none that cannot be read. -/
def lexemes? (text : String) : Option (List Lexeme) :=
  ((Cursor.ofText text).tokens.map (List.map Token.lexeme)).toOption

theorem tokens_of_lexemes? {text : String} {ls : List Lexeme} (hwords : lexemes? text = some ls) :
    ∃ tokens, (Cursor.ofText text).tokens = .ok tokens ∧ tokens.map Token.lexeme = ls := by
  rcases map_eq_ok (eq_ok_of_toOption hwords) with ⟨tokens, htokens, hls⟩
  exact ⟨tokens, htokens, hls⟩

/-- The reader before the first word of a text. -/
theorem ready_start {env : Environment} {text : String} {ls : List Lexeme}
    (hvalid : env.registry.IsValid) (hdeclared : env.registry.IsDeclared)
    (hwords : lexemes? text = some ls) (heap : Heap) :
    Ready env heap.size {} heap {} (.ofText text) ls := by
  have hstart : (Input.text text).start env heap =
      .ok (.inText env heap {} (Cursor.ofText text).rest (Cursor.ofText text).position) := rfl
  exact ⟨hvalid, hdeclared, start_sound hstart, start_typed hstart, Scopes.like_empty _,
    tokens_of_lexemes? hwords⟩

/-- A text of the grammar whose types, fields, scalars and names are right is read exactly if a
    comma stands behind every item of its rows, except perhaps the last of each: behind blocks in
    front of fields too, and between constants and between templates. -/
theorem readText_iff_obeys {env : Environment} {specs : List ObjectSpec} {text : String}
    {phrase : Phrase (.part .object)} (hspecs : Registry.empty.addAll specs = .ok env.registry)
    (hdeclared : env.registry.IsDeclared) (hwords : lexemes? text = some phrase.lexemes)
    (hcheck : (phrase.check env.registry (Role.value none) {}).isSome = true) (heap : Heap) :
    (∃ out, readText env heap text = .ok out) ↔ phrase.obeys Row.required = true := by
  rcases Option.isSome_iff_exists.1 hcheck with ⟨known, hknown⟩
  have hready := ready_start (Registry.isValid_of_addAll hspecs) hdeclared hwords heap
  rw [← List.append_nil phrase.lexemes] at hready
  have haccepts : accepts env heap {} (.ofText text) = (phrase.obeys Row.required && true) := by
    refine reads env heap.size phrase hknown ⟨.root, rfl, rfl⟩ (fun l hl => by cases hl) hready ?_
    rintro heap' scopes' bodies' mode' d' - ⟨target, r, htarget, rfl, rfl⟩ h'
    cases htarget
    exact h'.finish
  rw [Bool.and_true] at haccepts
  rw [← haccepts]
  change (∃ out, readText env heap text = .ok out) ↔ (readText env heap text).isOk = true
  cases readText env heap text with
  | error e => exact ⟨nofun, nofun⟩
  | ok out => exact ⟨fun _ => rfl, fun _ => ⟨out, rfl⟩⟩

/-- A node with blocks, which holds a copy of a template and lists them both. -/
def Phrase.copying : Phrase (.part .object) :=
  .typed "Node" none <|
    .cons (.constants false (.cons (.constant "A" "1") false .nil)) true <|
    .cons (.templates (.cons (.typed "Node" (some "t") (.fields .nil)) false .nil)) true <|
    .fields <|
    .cons (.field "next" (.object (.clone "t" "u"))) true <|
    .cons (.field "all" (.objects (.cons (.quoted "u") true (.cons (.use "t") false .nil)))) false
    .nil

/-- The text of this node. -/
def copyingText : String :=
  "Node \x7b [A: \"1\"], TEMPLATES: [Node \"t\" \x7b\x7d], " ++
    "next: CLONE \"t\" \"u\", all: [\"u\", USE \"t\"] \x7d"

/-- Its commas are where they have to be. -/
theorem readText_copying :
    lexemes? copyingText = some Phrase.copying.lexemes ∧
      (Phrase.copying.check .nodes (Role.value none) {}).isSome = true ∧
      ∃ out, readText (.nodes fun _ => .error "") .empty copyingText = .ok out := by
  have hspecs : Registry.empty.addAll Registry.nodes.specs =
      .ok (Environment.nodes fun _ => .error "").registry := rfl
  have hdeclared : Registry.nodes.IsDeclared := by
    intro spec hspec field hfield
    cases List.mem_singleton.1 hspec
    rcases List.mem_pair.1 hfield with rfl | rfl <;> trivial
  have hwords : lexemes? copyingText = some Phrase.copying.lexemes := by decide +kernel
  have hcheck : (Phrase.copying.check .nodes (Role.value none) {}).isSome = true := by decide
  exact ⟨hwords, hcheck, (readText_iff_obeys hspecs hdeclared hwords hcheck .empty).2 rfl⟩

/-- A node with constants in front of its only field, and no comma between them. -/
def Phrase.unseparated : Phrase (.part .object) :=
  .typed "Node" none <|
    .cons (.constants false (.cons (.constant "A" "1") false .nil)) false <|
    .fields (.cons (.field "all" (.objects .nil)) false .nil)

/-- As it is documented, this is a text, and all in it is right. It is not read, for the reader
    looks for a comma behind the constants. -/
theorem not_read_unseparated :
    lexemes? "Node \x7b [A: \"1\"] all: [] \x7d" = some Phrase.unseparated.lexemes ∧
      Phrase.unseparated.obeys Row.documented = true ∧
      (Phrase.unseparated.check .nodes (Role.value none) {}).isSome = true ∧
      ¬ ∃ out, readText (.nodes fun _ => .error "") .empty
        "Node \x7b [A: \"1\"] all: [] \x7d" = .ok out := by
  refine ⟨by decide +kernel, rfl, by decide, ?_⟩
  have hfails : ((Input.text "Node \x7b [A: \"1\"] all: [] \x7d").answerWithin?
      (.nodes fun _ => .error "") .empty 12).any (fun answer => !answer.isOk) = true := by
    decide +kernel
  rcases (Option.any_eq_true _ _).1 hfails with ⟨answer, hanswer, hnot⟩
  rintro ⟨out, hread⟩
  have hout : answer = .ok out := (Input.read_of_answerWithin? hanswer).symm.trans hread
  rw [hout] at hnot
  cases hnot

end GraphText.Reader

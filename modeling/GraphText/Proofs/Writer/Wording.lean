import GraphText.Proofs.Reader.Written
import GraphText.Proofs.Writer.Sifted
import GraphText.Proofs.Writer.Writable

/-!
# The words of written graphs

A reader sees words, and the writer puts out characters. Between the two stands
the outline: indentation and line ends come and go with the depth of an object,
while the words of an outline are the same at every depth, and so they are if a
filter has taken out objects around them. What the words say of types and fields
is what the outline says, so whoever reasons about the words of a text can
forget the text.

The text is taken apart from the front, with whatever stands behind it. Every
piece that could run on into the next one is followed by a blank or a comma.

This is about all graphs and not only about those that can be read. Values of
one field that do not go together are written side by side, objects among them
as nothing, and a single may be infinite, which is spelled like a name.

## Main definitions

* `scalarWords`, `Outline.lexemes`: the words of values and of outlines.
* `Outline.IsSpelled`: outlines whose types and fields can be named in a text.

## Theorems

* `Sifted.spells`: the text of an outline is read as its words.
* `Sifted.isSpelled`: outlines of graphs whose types and fields can be named.
-/

namespace GraphText.Writer

open Lexeme (Spells)

/-- The words of the values of a field that are written side by side. -/
def scalarWords (field : FieldSpec) (vs : List Value) : List Lexeme :=
  if field.kind.isList then
    .punct '[' ::
      (List.intercalate [.punct ','] (vs.map fun v => v.lexeme?.toList) ++ [.punct ']'])
  else List.intercalate [] (vs.map fun v => v.lexeme?.toList)

mutual

/-- The words of an object. -/
def Outline.lexemes : Outline → List Lexeme
  | .use _ name => [.name "USE", .quoted name]
  | .full _ type name lines =>
    .name type :: (name.toList.map .quoted ++ .punct '\x7b' :: (lines.lexemes ++ [.punct '\x7d']))

/-- The words of the lines of a body. -/
def Lines.lexemes : Lines → List Lexeme
  | .nil => []
  | .scalars field vs rest =>
    .name field.name :: .punct ':' :: (scalarWords field vs ++ .punct ',' :: rest.lexemes)
  | .object field o rest =>
    .name field.name :: .punct ':' :: (o.lexemes ++ .punct ',' :: rest.lexemes)
  | .objects field os rest =>
    .name field.name :: .punct ':' :: .punct '[' ::
      (os.lexemes ++ .punct ']' :: .punct ',' :: rest.lexemes)

/-- The words of the lines of a list. -/
def Elements.lexemes : Elements → List Lexeme
  | .nil => []
  | .cons o rest => o.lexemes ++ .punct ',' :: rest.lexemes

end

mutual

/-- A text can name the types and the fields, and no type is taken for the keyword of a copy. -/
def Outline.IsSpelled : Outline → Prop
  | .use _ _ => True
  | .full _ type _ lines => Lexeme.IsWord type ∧ type ≠ "CLONE" ∧ lines.IsSpelled

def Lines.IsSpelled : Lines → Prop
  | .nil => True
  | .scalars field _ rest => Lexeme.IsWord field.name ∧ rest.IsSpelled
  | .object field o rest => Lexeme.IsWord field.name ∧ o.IsSpelled ∧ rest.IsSpelled
  | .objects field os rest => Lexeme.IsWord field.name ∧ os.IsSpelled ∧ rest.IsSpelled

def Elements.IsSpelled : Elements → Prop
  | .nil => True
  | .cons o rest => o.IsSpelled ∧ rest.IsSpelled

end

section

variable {rest : List Char} {ls : List Lexeme}

theorem spells_value (v : Value) (hname : Stops Lexeme.isNameRest rest)
    (hnumber : Stops Lexeme.isNumberRest rest) (h : Spells rest ls) :
    Spells (v.text.toList ++ rest) (v.lexeme?.toList ++ ls) := by
  cases hl : v.lexeme? with
  | none =>
      rw [Reader.text_of_lexeme?_eq_none hl]
      exact h
  | some l =>
      have hstarts := Reader.starts_lexeme hl hname hnumber
      refine .cons hstarts ?_ h
      -- No value is written as the end.
      rintro rfl
      cases v with
      | float x =>
          rw [Value.lexeme?, Option.some.injEq] at hl
          split at hl <;> cases hl
      | _ => cases hl

/-- Values side by side, with something between them that ends a word. -/
theorem spells_values {sep : String} {between : List Lexeme} (vs : List Value)
    (hsep : ∀ cs ls, Spells cs ls → Spells (sep.toList ++ cs) (between ++ ls))
    (hstops : ∀ cs, Stops Lexeme.isNameRest (sep.toList ++ cs) ∧
      Stops Lexeme.isNumberRest (sep.toList ++ cs))
    (hname : Stops Lexeme.isNameRest rest) (hnumber : Stops Lexeme.isNumberRest rest)
    (h : Spells rest ls) :
    Spells ((String.intercalate sep (vs.map Value.text)).toList ++ rest)
      (List.intercalate between (vs.map fun v => v.lexeme?.toList) ++ ls) := by
  induction vs with
  | nil => exact h
  | cons v vs ih =>
      -- Behind the last value comes what is known to end a word, and behind any other the
      -- separator.
      cases vs with
      | nil => simpa using spells_value v hname hnumber h
      | cons w vs =>
          have hstop := hstops ((String.intercalate sep ((w :: vs).map Value.text)).toList ++ rest)
          have hfirst := spells_value v hstop.1 hstop.2 (hsep _ _ ih)
          simpa [String.intercalate_cons_cons, List.intercalate_cons_cons, String.toList_append]
            using hfirst

/-- The values of a field, with a comma behind them. -/
theorem spells_scalars (field : FieldSpec) (vs : List Value) (h : Spells (',' :: rest) ls) :
    Spells ((scalarsText field vs).toList ++ ',' :: rest) (scalarWords field vs ++ ls) := by
  unfold scalarsText scalarWords
  split
  · have hcomma : ∀ cs ls, Spells cs ls → Spells (", ".toList ++ cs) ([.punct ','] ++ ls) :=
      fun cs ls hcs => .punct rfl (.blank rfl hcs)
    have hlist : Spells ('[' :: ((String.intercalate ", " (vs.map Value.text)).toList ++
        ']' :: ',' :: rest)) _ :=
      .punct rfl (spells_values vs hcomma (fun cs => ⟨stops_cons rfl _, stops_cons rfl _⟩)
        (stops_cons rfl _) (stops_cons rfl _) (.punct rfl h))
    simpa [String.toList_append] using hlist
  · exact spells_values vs (fun cs ls hcs => .blank rfl hcs)
      (fun cs => ⟨stops_cons rfl _, stops_cons rfl _⟩) (stops_cons rfl _) (stops_cons rfl _) h

/-- The name of a field, with its colon. -/
theorem spells_field {name : String} (hword : Lexeme.IsWord name) (depth : Nat)
    (h : Spells rest ls) :
    Spells ((indentation depth ++ name ++ ": ").toList ++ rest)
      (.name name :: .punct ':' :: ls) := by
  have hname : Spells (name.toList ++ ':' :: ' ' :: rest) (.name name :: .punct ':' :: ls) :=
    .name hword (stops_cons rfl _) (.punct rfl (.blank rfl h))
  simpa [String.toList_append] using Spells.blanks (isBlank_indentation depth) hname

/-- The comma behind a line. -/
theorem spells_comma (h : Spells rest ls) : Spells (',' :: '\n' :: rest) (.punct ',' :: ls) :=
  .punct rfl (.blank rfl h)

/-- The head of an object, in front of its body. -/
theorem spells_header {type : String} (hword : Lexeme.IsWord type) (name : Option String)
    (h : Spells rest ls) :
    Spells ((header type name).toList ++ ' ' :: rest)
      (.name type :: (name.toList.map .quoted ++ ls)) := by
  cases name with
  | none => exact .name hword (stops_cons rfl _) (.blank rfl h)
  | some name =>
      have hhead : Spells (type.toList ++ ' ' :: (Text.Quoted.text name.toList ++ ' ' :: rest))
          (.name type :: .quoted name :: ls) :=
        .name hword (stops_cons rfl _) (.blank rfl (.quoted name (.blank rfl h)))
      simpa [header, quote, String.toList_append] using hhead

end

-- The induction is on the outline, and what stands behind it is left open. So a piece is put in
-- front of characters that already spell their words, and the last piece of a body comes first.
mutual

/-- The text of an object is read as the words of its outline. -/
theorem Sifted.spells (t : Sifted) (depth : Nat) (hspelled : t.outline.IsSpelled)
    {rest : List Char} {ls : List Lexeme} (h : Spells rest ls) :
    Spells ((t.text depth).toList ++ rest) (t.outline.lexemes ++ ls) := by
  cases t with
  | use r name =>
      have huse : Spells ("USE".toList ++ ' ' :: (Text.Quoted.text name.toList ++ rest))
          (.name "USE" :: .quoted name :: ls) :=
        .name Reader.isWord_use (stops_cons rfl _) (.blank rfl (.quoted name h))
      simpa [Sifted.text, Sifted.outline, Outline.lexemes, quote, String.toList_append] using huse
  | full r type name lines =>
      rcases hspelled with ⟨hword, -, hlines⟩
      -- A body without lines stands on the line of its header.
      cases lines with
      | nil =>
          have hbody : Spells ('\x7b' :: '\x7d' :: rest) (.punct '\x7b' :: .punct '\x7d' :: ls) :=
            .punct rfl (.punct rfl h)
          simpa [Sifted.text, Sifted.outline, SiftedLines.lines, Outline.lexemes, Lines.lexemes,
            String.toList_append] using spells_header hword name hbody
      | scalars | object | rejected | objects =>
          have hend := Spells.blanks (isBlank_indentation depth) (.punct (c := '\x7d') rfl h)
          have hbody := spells_header hword name
            (.punct (c := '\x7b') rfl (.blank (c := '\n') rfl
              (SiftedLines.spells _ (depth + 1) hlines hend)))
          simpa [Sifted.text, Sifted.outline, Outline.lexemes, String.toList_append] using hbody

theorem SiftedLines.spells (lines : SiftedLines) (depth : Nat) (hspelled : lines.lines.IsSpelled)
    {rest : List Char} {ls : List Lexeme} (h : Spells rest ls) :
    Spells ((lines.text depth).toList ++ rest) (lines.lines.lexemes ++ ls) := by
  cases lines with
  | nil => exact h
  | scalars field vs others =>
      have hvalue := spells_scalars field vs (spells_comma (others.spells depth hspelled.2 h))
      simpa [SiftedLines.text, SiftedLines.lines, Lines.lexemes, String.toList_append] using
        spells_field hspelled.1 depth hvalue
  | object field t others =>
      have hvalue := t.spells depth hspelled.2.1
        (spells_comma (others.spells depth hspelled.2.2 h))
      simpa [SiftedLines.text, SiftedLines.lines, Lines.lexemes, String.toList_append] using
        spells_field hspelled.1 depth hvalue
  | rejected field r others => exact others.spells depth hspelled h
  | objects field ts others =>
      have hvalue := ts.spells depth false hspelled.2.1
        (spells_comma (others.spells depth hspelled.2.2 h))
      simpa [SiftedLines.text, SiftedLines.lines, Lines.lexemes, String.toList_append] using
        spells_field hspelled.1 depth hvalue

/-- The text of a list, or of the rest of it if it has begun. -/
theorem SiftedElements.spells (ts : SiftedElements) (depth : Nat) (begun : Bool)
    (hspelled : ts.elements.IsSpelled) {rest : List Char} {ls : List Lexeme}
    (h : Spells rest ls) :
    Spells ((ts.text depth begun).toList ++ rest)
      ((if begun then [] else [.punct '[']) ++ (ts.elements.lexemes ++ .punct ']' :: ls)) := by
  cases ts with
  | nil =>
      have hend : Spells (']' :: rest) (.punct ']' :: ls) := .punct rfl h
      -- The bracket and the line end stand in front of the first element only.
      cases begun with
      | true =>
          simpa [SiftedElements.text, SiftedElements.elements, Elements.lexemes,
            String.toList_append] using Spells.blanks (isBlank_indentation depth) hend
      | false =>
          simpa [SiftedElements.text, SiftedElements.elements, Elements.lexemes,
            String.toList_append] using Spells.punct (c := '[') rfl hend
  | cons t others =>
      have hline := Spells.blanks (isBlank_indentation (depth + 1)) (t.spells (depth + 1) hspelled.1
        (spells_comma (others.spells depth true hspelled.2 h)))
      cases begun with
      | true =>
          simpa [SiftedElements.text, SiftedElements.elements, Elements.lexemes,
            String.toList_append] using hline
      | false =>
          simpa [SiftedElements.text, SiftedElements.elements, Elements.lexemes,
            String.toList_append] using Spells.punct (c := '[') rfl (.blank (c := '\n') rfl hline)
  | rejected r others =>
      have hothers := others.spells depth begun hspelled h
      cases begun with
      | true => exact hothers
      | false => exact hothers

end

section

variable {reg : Registry} {h : Heap} {root : Ref}

mutual

/-- What is shown of a graph can be spelled if the types and the fields of all that can be reached
    can be named. -/
theorem Sifted.isSpelled (t : Sifted) {r : Ref} (hshows : t.Shows reg h r)
    (hreach : h.Reaches reg.visibleOf root r)
    (hnames : ∀ x, h.Reaches reg.visibleOf root x →
      Lexeme.IsWord (h.get x).typeName ∧ (h.get x).typeName ≠ "CLONE" ∧
        ∀ field ∈ reg.visibleOf (h.get x), Lexeme.IsWord field.name) :
    t.outline.IsSpelled := by
  cases t with
  | use x name => trivial
  | full x type name lines =>
      rcases hshows with ⟨-, rfl, hlines⟩
      rcases hnames r hreach with ⟨hword, hclone, hfields⟩
      refine ⟨hword, hclone, lines.isSpelled hlines (fun line hline => ⟨?_, fun y hy => ?_⟩) hnames⟩
      · exact hfields line.1 (mem_writtenFields.1 hline).1
      · exact hreach.tail (linked_of_writtenFields hline hy)

theorem SiftedLines.isSpelled (ls : SiftedLines) {fields : List (FieldSpec × List Value)}
    (hshows : ls.Shows reg h fields)
    (hfields : ∀ line ∈ fields, Lexeme.IsWord line.1.name ∧
      ∀ x ∈ line.2.flatMap Value.refs, h.Reaches reg.visibleOf root x)
    (hnames : ∀ x, h.Reaches reg.visibleOf root x →
      Lexeme.IsWord (h.get x).typeName ∧ (h.get x).typeName ≠ "CLONE" ∧
        ∀ field ∈ reg.visibleOf (h.get x), Lexeme.IsWord field.name) :
    ls.lines.IsSpelled := by
  cases ls with
  | nil => trivial
  | scalars field vs rest =>
      rcases hshows with ⟨others, rfl, -, hrest⟩
      rcases List.forall_mem_cons.1 hfields with ⟨hfirst, hothers⟩
      exact ⟨hfirst.1, rest.isSpelled hrest hothers hnames⟩
  | object field t rest =>
      rcases hshows with ⟨x, others, rfl, ht, hrest⟩
      rcases List.forall_mem_cons.1 hfields with ⟨hfirst, hothers⟩
      exact ⟨hfirst.1, t.isSpelled ht (hfirst.2 x (by simp [Value.refs])) hnames,
        rest.isSpelled hrest hothers hnames⟩
  | rejected field x rest =>
      rcases hshows with ⟨others, rfl, hrest⟩
      exact rest.isSpelled hrest (List.forall_mem_cons.1 hfields).2 hnames
  | objects field ts rest =>
      rcases hshows with ⟨rs, others, rfl, hts, hrest⟩
      rcases List.forall_mem_cons.1 hfields with ⟨hfirst, hothers⟩
      exact ⟨hfirst.1,
        ts.isSpelled hts (fun x hx => hfirst.2 x (by simpa [Value.refs] using hx)) hnames,
        rest.isSpelled hrest hothers hnames⟩

theorem SiftedElements.isSpelled (ts : SiftedElements) {rs : List Ref}
    (hshows : ts.Shows reg h rs) (hreach : ∀ x ∈ rs, h.Reaches reg.visibleOf root x)
    (hnames : ∀ x, h.Reaches reg.visibleOf root x →
      Lexeme.IsWord (h.get x).typeName ∧ (h.get x).typeName ≠ "CLONE" ∧
        ∀ field ∈ reg.visibleOf (h.get x), Lexeme.IsWord field.name) :
    ts.elements.IsSpelled := by
  cases ts with
  | nil => trivial
  | cons t rest =>
      rcases hshows with ⟨x, others, rfl, ht, hrest⟩
      rcases List.forall_mem_cons.1 hreach with ⟨hx, hothers⟩
      exact ⟨t.isSpelled ht hx hnames, rest.isSpelled hrest hothers hnames⟩
  | rejected x rest =>
      rcases hshows with ⟨others, rfl, hrest⟩
      exact rest.isSpelled hrest (List.forall_mem_cons.1 hreach).2 hnames

end

end

end GraphText.Writer

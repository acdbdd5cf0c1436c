import GraphText.Proofs.Reader.Trail
import GraphText.Proofs.Writer.Wording

/-!
# What the trail of a text says of its outline

An outline is written with words that copy, include and expand nothing, so if
its text is read, every name behind `USE` is that of a body that has been closed
before. In an outline the names are those of objects. If a name by which
something is shown is the name of no other object, the body that has been closed
is that of the same object. So the outline of a text that is read is grounded,
and this does not depend on what the reader took the text for.

The words of values are inert: they move nothing on the trail, whatever stands
in a string. A field may have the name of any keyword, since a colon follows.

## Main definitions

* `Lexeme.IsInert`: words at which nothing begins and nothing ends.
* `Lexeme.ArePlain`: words that copy, include and expand nothing.
* `Sole`: names by which one object only is shown.
* `Known`: names of what is done.

## Theorems

* `Outline.arePlain`: the words of an outline.
* `Trail.Settled.field`, `Trail.Settled.header`: the trail behind the pieces of an outline.
* `Outline.grounded_of_settled`: an outline whose words are settled.
-/

namespace GraphText

open Reader Writer

/-- Whether nothing is expanded, included or copied at this word, and no body opened or closed. -/
def Lexeme.IsInert (l : Lexeme) : Prop :=
  (∀ c, l = .punct c → c ∉ ['$', '<', '\x7b', '\x7d']) ∧ l ≠ .name "CLONE"

section

variable {l : Lexeme} {ls : List Lexeme}

theorem Lexeme.IsInert.ne_punct (hl : l.IsInert) {c : Char} (hc : c ∈ ['$', '<', '\x7b', '\x7d']) :
    l ≠ .punct c :=
  fun heq => hl.1 c heq hc

theorem Lexeme.inert_of_punct {c : Char} (hc : c ∉ ['$', '<', '\x7b', '\x7d']) :
    (Lexeme.punct c).IsInert :=
  ⟨fun _ heq => Lexeme.punct.inj heq ▸ hc, nofun⟩

theorem Lexeme.inert_of_name {s : String} (hs : s ≠ "CLONE") : (Lexeme.name s).IsInert :=
  ⟨by simp, fun heq => hs (Lexeme.name.inj heq)⟩

theorem Lexeme.inert_of_value {v : Value} (hl : v.lexeme? = some l) : l.IsInert := by
  have hnumber : ∀ s, (Lexeme.number s).IsInert := fun s => ⟨by simp, by simp⟩
  cases v with
  | bool b =>
      cases hl
      exact inert_of_name (by cases b <;> simp [Literal.boolText])
  | int n =>
      cases hl
      exact hnumber _
  | uint n =>
      cases hl
      exact hnumber _
  | float x =>
      rw [Value.lexeme?, Option.some.injEq] at hl
      subst hl
      -- Words stand for what is no number, except for a minus and an infinity behind it.
      rcases x.text_cases with htext | htext | htext | ⟨hne, hchars⟩
      · rw [htext]
        exact inert_of_name (s := "NaN") (by decide)
      · rw [htext]
        exact hnumber "-inf"
      · rw [htext]
        exact inert_of_name (s := "inf") (by decide)
      · rw [float_lexeme hne hchars]
        exact hnumber _
  | string s =>
      cases hl
      exact ⟨by simp, by simp⟩
  | object r => cases hl
  | objects rs => cases hl

theorem Lexeme.inert_of_values {between : List Lexeme} (hbetween : ∀ x ∈ between, x.IsInert)
    (vs : List Value) :
    ∀ l ∈ List.intercalate between (vs.map fun v => v.lexeme?.toList), l.IsInert := by
  have hvalue : ∀ v : Value, ∀ l ∈ v.lexeme?.toList, l.IsInert :=
    fun v l hl => inert_of_value (Option.mem_toList.1 hl)
  induction vs with
  | nil => exact fun l hl => absurd hl List.not_mem_nil
  | cons v vs ih =>
      cases vs with
      | nil => simpa using hvalue v
      | cons w vs =>
          intro l hl
          rw [List.map_cons, List.map_cons, List.intercalate_cons_cons] at hl
          rcases List.mem_append.1 hl with hl | hl
          · rcases List.mem_append.1 hl with hl | hl
            · exact hvalue v l hl
            · exact hbetween l hl
          · exact ih l hl

/-- Scalars are written with inert words. -/
theorem Lexeme.inert_of_scalars (field : FieldSpec) (vs : List Value) :
    ∀ l ∈ scalarWords field vs, l.IsInert := by
  unfold scalarWords
  split
  · have hcomma : ∀ l ∈ [Lexeme.punct ','], l.IsInert :=
      fun l hl => List.mem_singleton.1 hl ▸ inert_of_punct (by decide)
    refine List.forall_mem_cons.2 ⟨inert_of_punct (by decide), List.forall_mem_append.2
      ⟨inert_of_values hcomma vs, List.forall_mem_cons.2 ⟨inert_of_punct (by decide), nofun⟩⟩⟩
  · exact inert_of_values (fun l hl => absurd hl List.not_mem_nil) vs

/-- An inert word behind another one. -/
theorem Lexeme.plain_of_inert {last : Lexeme} (hl : l.IsInert) (hlast : last ≠ .name "CLONE") :
    Lexeme.Plain last l :=
  ⟨hl.ne_punct (by decide), hl.ne_punct (by decide), fun heq => absurd heq hlast⟩

end

/-- Whether some words copy, include and expand nothing behind any word but the keyword of a copy.
    -/
def Lexeme.ArePlain (ls : List Lexeme) : Prop :=
  ∀ last, last ≠ .name "CLONE" → Lexeme.IsPlain last ls

namespace Lexeme.ArePlain

variable {l : Lexeme} {ls ws : List Lexeme}

theorem nil : ArePlain [] := fun _ _ => trivial

theorem cons (hdollar : l ≠ .punct '$') (hinclude : l ≠ .punct '<') (hclone : l ≠ .name "CLONE")
    (h : ArePlain ls) : ArePlain (l :: ls) :=
  fun _ hlast => ⟨⟨hdollar, hinclude, fun heq => absurd heq hlast⟩, h l hclone⟩

theorem append (hws : ∀ l ∈ ws, l.IsInert) (h : ArePlain ls) : ArePlain (ws ++ ls) := by
  induction ws with
  | nil => exact h
  | cons w ws ih =>
      rcases List.forall_mem_cons.1 hws with ⟨hw, hws⟩
      exact fun last hlast => ⟨plain_of_inert hw hlast, ih hws w hw.2⟩

/-- Any name may stand in front of a colon. -/
theorem field {name : String} (h : ArePlain ls) :
    ArePlain (.name name :: .punct ':' :: ls) :=
  fun _ hlast => ⟨⟨by simp, by simp, fun heq => absurd heq hlast⟩,
    ⟨by decide, by decide, by simp⟩, h _ (by simp)⟩

end Lexeme.ArePlain

-- A string behind the keyword of a copy would be the name of a template. No piece ends in the
-- keyword, so the pieces can be put one behind the other.
mutual

/-- Outlines copy, include and expand nothing. -/
theorem Writer.Outline.arePlain (o : Outline) (hspelled : o.IsSpelled) {ls : List Lexeme}
    (h : Lexeme.ArePlain ls) : Lexeme.ArePlain (o.lexemes ++ ls) := by
  cases o with
  | use r name => exact .cons nofun nofun (by decide) (.cons nofun nofun nofun h)
  | full r type name lines =>
      rcases hspelled with ⟨-, hclone, hlines⟩
      have htype : Lexeme.name type ≠ .name "CLONE" := fun heq => hclone (Lexeme.name.inj heq)
      have hend : Lexeme.ArePlain (.punct '\x7d' :: ls) := .cons (by decide) (by decide) nofun h
      have hbody : Lexeme.ArePlain (.punct '\x7b' :: (lines.lexemes ++ .punct '\x7d' :: ls)) :=
        .cons (by decide) (by decide) nofun (lines.arePlain hlines hend)
      cases name with
      | none =>
          have hhead : Lexeme.ArePlain (.name type :: _) := .cons nofun nofun htype hbody
          simpa [Outline.lexemes] using hhead
      | some name =>
          have hhead : Lexeme.ArePlain (.name type :: .quoted name :: _) :=
            .cons nofun nofun htype (.cons nofun nofun nofun hbody)
          simpa [Outline.lexemes] using hhead

theorem Writer.Lines.arePlain (lines : Lines) (hspelled : lines.IsSpelled) {ls : List Lexeme}
    (h : Lexeme.ArePlain ls) : Lexeme.ArePlain (lines.lexemes ++ ls) := by
  have hcomma : ∀ {ls}, Lexeme.ArePlain ls → Lexeme.ArePlain (.punct ',' :: ls) :=
    fun h => .cons (by decide) (by decide) nofun h
  cases lines with
  | nil => exact h
  | scalars field vs rest =>
      have hvalue := Lexeme.ArePlain.append (Lexeme.inert_of_scalars field vs)
        (hcomma (rest.arePlain hspelled.2 h))
      simpa [Lines.lexemes] using hvalue.field
  | object field o rest =>
      have hvalue := o.arePlain hspelled.2.1 (hcomma (rest.arePlain hspelled.2.2 h))
      simpa [Lines.lexemes] using hvalue.field
  | objects field os rest =>
      have hend : Lexeme.ArePlain (.punct ']' :: _) :=
        .cons (by decide) (by decide) nofun (hcomma (rest.arePlain hspelled.2.2 h))
      have hvalue : Lexeme.ArePlain (.punct '[' :: _) :=
        .cons (by decide) (by decide) nofun (os.arePlain hspelled.2.1 hend)
      simpa [Lines.lexemes] using hvalue.field

theorem Writer.Elements.arePlain (os : Elements) (hspelled : os.IsSpelled) {ls : List Lexeme}
    (h : Lexeme.ArePlain ls) : Lexeme.ArePlain (os.lexemes ++ ls) := by
  cases os with
  | nil => exact h
  | cons o rest =>
      have hcomma : Lexeme.ArePlain (.punct ',' :: _) :=
        .cons (by decide) (by decide) nofun (rest.arePlain hspelled.2 h)
      simpa [Elements.lexemes] using o.arePlain hspelled.1 hcomma

end

/-- What is shown has the names of its objects, and a name by which something is shown is the name
    of nothing else. -/
def Sole (names : Ref → Option String) (vs : List Visit) : Prop :=
  ∀ v ∈ vs, v.name = names v.ref ∧ (v.isFull = false → ∀ x, names x = v.name → x = v.ref)

/-- Names that have been closed are names of what is done. -/
def Known (names : Ref → Option String) (closed : List String) (done : List Ref) : Prop :=
  ∀ name ∈ closed, ∃ r ∈ done, names r = some name

section

variable {names : Ref → Option String} {vs ws : List Visit} {done more : List Ref} {r : Ref}
  {closed : List String} {last l : Lexeme} {opened : List (Option String)} {ls words : List Lexeme}

theorem sole_append : Sole names (vs ++ ws) ↔ Sole names vs ∧ Sole names ws :=
  List.forall_mem_append

theorem Known.mono (hknown : Known names closed done) (hsub : done ⊆ more) :
    Known names closed more := by
  intro name hname
  rcases hknown name hname with ⟨x, hx, hxname⟩
  exact ⟨x, hsub hx, hxname⟩

/-- An object whose body ends is done, so its name may be known. -/
theorem Known.close {name : Option String} (hknown : Known names closed (done ++ fulls vs))
    (hname : name = names r) :
    Known names (name.toList ++ closed) (done ++ fulls (⟨r, name, true⟩ :: vs)) := by
  have hbodies : done ++ fulls (⟨r, name, true⟩ :: vs) = done ++ r :: fulls vs := rfl
  intro n hn
  rw [hbodies]
  rcases List.mem_append.1 hn with hn | hn
  · refine ⟨r, by simp, ?_⟩
    rw [← hname]
    exact Option.mem_toList.1 hn
  · rcases hknown n hn with ⟨x, hx, hxname⟩
    refine ⟨x, ?_, hxname⟩
    rcases List.mem_append.1 hx with hx | hx
    · exact List.mem_append_left _ hx
    · exact List.mem_append_right _ (List.mem_cons_of_mem _ hx)

namespace Reader.Trail

/-- Behind a word that is no brace. -/
theorem Settled.skip (h : (⟨last, opened, closed⟩ : Trail).Settled (l :: ls))
    (hopen : l ≠ .punct '\x7b') (hclose : l ≠ .punct '\x7d') :
    (⟨l, opened, closed⟩ : Trail).Settled ls := by
  have hrest := h.2
  rwa [next_other hopen hclose] at hrest

/-- Behind inert words. -/
theorem Settled.skipAll (hwords : ∀ l ∈ words, l.IsInert)
    (h : (⟨last, opened, closed⟩ : Trail).Settled (words ++ ls)) :
    ∃ last', (⟨last', opened, closed⟩ : Trail).Settled ls := by
  induction words generalizing last with
  | nil => exact ⟨last, h⟩
  | cons w words ih =>
      rcases List.forall_mem_cons.1 hwords with ⟨hw, hwords⟩
      exact ih hwords (h.skip (hw.ne_punct (by decide)) (hw.ne_punct (by decide)))

/-- Behind the name of a field and its colon. -/
theorem Settled.field {name : String}
    (h : (⟨last, opened, closed⟩ : Trail).Settled (.name name :: .punct ':' :: ls)) :
    (⟨.punct ':', opened, closed⟩ : Trail).Settled ls :=
  (h.skip nofun nofun).skip (by decide) (by decide)

/-- Behind the header of an object and the brace of its body. -/
theorem Settled.header {type : String} {name : Option String}
    (h : (⟨last, opened, closed⟩ : Trail).Settled
      (.name type :: (name.toList.map .quoted ++ .punct '\x7b' :: ls))) :
    (⟨.punct '\x7b', name :: opened, closed⟩ : Trail).Settled ls := by
  have htype := h.skip nofun nofun
  cases name with
  | none => exact htype.2
  | some name =>
      have hname : (⟨.quoted name, opened, closed⟩ : Trail).Settled (.punct '\x7b' :: ls) :=
        htype.skip nofun nofun
      exact hname.2

end Reader.Trail

-- The induction is on the outline, from the front of its words to what stands behind them. What has
-- been closed is carried along with what is done; the bodies that are open are the same behind an
-- outline as in front of it.
mutual

/-- An outline is grounded if its text is settled and what has been closed in front of it is done.
    -/
theorem Writer.Outline.grounded_of_settled (o : Outline) (hsole : Sole names o.visits)
    {done : List Ref} {last : Lexeme} {opened : List (Option String)} {closed : List String}
    {ls : List Lexeme} (hknown : Known names closed done)
    (h : (⟨last, opened, closed⟩ : Trail).Settled (o.lexemes ++ ls)) :
    o.Grounded done ∧ ∃ last' closed', Known names closed' (done ++ fulls o.visits) ∧
      (⟨last', opened, closed'⟩ : Trail).Settled ls := by
  cases o with
  | use r name =>
      rcases hsole _ List.mem_cons_self with ⟨hname, hone⟩
      have hquoted := h.skip nofun nofun
      -- The name is that of something that is done, which can only be this object.
      rcases hknown name (hquoted.1 rfl name rfl) with ⟨x, hx, hxname⟩
      cases hone rfl x hxname
      exact ⟨hx, _, closed, hknown.mono (List.subset_append_left _ _), hquoted.skip nofun nofun⟩
  | full r type name lines =>
      rcases List.forall_mem_cons.1 hsole with ⟨⟨hname, -⟩, hlines⟩
      simp only [Outline.lexemes, List.cons_append, List.append_assoc, List.nil_append] at h
      rcases lines.grounded_of_settled hlines hknown h.header with
        ⟨hground, last', closed', hknown', hend⟩
      exact ⟨hground, _, _, hknown'.close hname, hend.2⟩

theorem Writer.Lines.grounded_of_settled (lines : Lines) (hsole : Sole names lines.visits)
    {done : List Ref} {last : Lexeme} {opened : List (Option String)} {closed : List String}
    {ls : List Lexeme} (hknown : Known names closed done)
    (h : (⟨last, opened, closed⟩ : Trail).Settled (lines.lexemes ++ ls)) :
    lines.Grounded done ∧ ∃ last' closed', Known names closed' (done ++ fulls lines.visits) ∧
      (⟨last', opened, closed'⟩ : Trail).Settled ls := by
  -- What has been closed inside the first line is done when the other lines are read.
  cases lines with
  | nil => exact ⟨trivial, last, closed, hknown.mono (List.subset_append_left _ _), h⟩
  | scalars field vs rest =>
      simp only [Lines.lexemes, List.cons_append, List.append_assoc] at h
      rcases h.field.skipAll (Lexeme.inert_of_scalars field vs) with ⟨last, hcomma⟩
      exact rest.grounded_of_settled hsole hknown (hcomma.skip (by decide) (by decide))
  | object field o rest =>
      rcases sole_append.1 hsole with ⟨hsoleo, hsolerest⟩
      simp only [Lines.lexemes, List.cons_append, List.append_assoc] at h
      rcases o.grounded_of_settled hsoleo hknown h.field with ⟨hground, _, _, hknowno, hcomma⟩
      rcases rest.grounded_of_settled hsolerest hknowno (hcomma.skip (by decide) (by decide)) with
        ⟨hgroundrest, last', closed', hknown', hend⟩
      rw [List.append_assoc, ← fulls_append] at hknown'
      exact ⟨⟨hground, hgroundrest⟩, last', closed', hknown', hend⟩
  | objects field os rest =>
      rcases sole_append.1 hsole with ⟨hsoleos, hsolerest⟩
      simp only [Lines.lexemes, List.cons_append, List.append_assoc] at h
      rcases os.grounded_of_settled hsoleos hknown (h.field.skip (by decide) (by decide)) with
        ⟨hground, _, _, hknownos, hbracket⟩
      have hcomma := hbracket.skip (by decide) (by decide)
      rcases rest.grounded_of_settled hsolerest hknownos (hcomma.skip (by decide) (by decide)) with
        ⟨hgroundrest, last', closed', hknown', hend⟩
      rw [List.append_assoc, ← fulls_append] at hknown'
      exact ⟨⟨hground, hgroundrest⟩, last', closed', hknown', hend⟩

theorem Writer.Elements.grounded_of_settled (os : Elements) (hsole : Sole names os.visits)
    {done : List Ref} {last : Lexeme} {opened : List (Option String)} {closed : List String}
    {ls : List Lexeme} (hknown : Known names closed done)
    (h : (⟨last, opened, closed⟩ : Trail).Settled (os.lexemes ++ ls)) :
    os.Grounded done ∧ ∃ last' closed', Known names closed' (done ++ fulls os.visits) ∧
      (⟨last', opened, closed'⟩ : Trail).Settled ls := by
  cases os with
  | nil => exact ⟨trivial, last, closed, hknown.mono (List.subset_append_left _ _), h⟩
  | cons o rest =>
      rcases sole_append.1 hsole with ⟨hsoleo, hsolerest⟩
      simp only [Elements.lexemes, List.cons_append, List.append_assoc] at h
      rcases o.grounded_of_settled hsoleo hknown h with ⟨hground, _, _, hknowno, hcomma⟩
      rcases rest.grounded_of_settled hsolerest hknowno (hcomma.skip (by decide) (by decide)) with
        ⟨hgroundrest, last', closed', hknown', hend⟩
      rw [List.append_assoc, ← fulls_append] at hknown'
      exact ⟨⟨hground, hgroundrest⟩, last', closed', hknown', hend⟩

end

end

end GraphText

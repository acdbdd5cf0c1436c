import GraphText.Proofs.Writer.Legible

/-!
# What a filter leaves

A filter is asked about every object before it is written and is told when it
has been. The questions and answers of a whole text make a list of words, and
the words are nested: an object that is accepted encloses what is asked and told
inside of it, and one that is rejected encloses nothing.

A sifted outline is what a filter leaves of an outline, together with what it
took out. It has a line for every written field and an element for every object
of a list, and the objects that were rejected stand in it where they were asked
about. They have no text. The words of a sifted outline are those of the filter,
and without the rejected objects it shows what any outline shows. So what was
written is what was accepted, in the same order.

The marks of an outline say where in the text the body of an object begins and
ends, and where an object is written by name. In a grounded outline an object is
written by name only behind the end of its body, where the name is that of its
header.

## Main definitions

* `Word`, `wordsOf`, `accepted`: what is asked and told, and what is accepted.
* `Nested`: words that enclose each other.
* `Heard`: events with answers that the filter gives, state by state.
* `Sifted`, `SiftedLines`, `SiftedElements`: outlines with what was rejected.
* `Sifted.text`, `Sifted.outline`: what is left.
* `Sifted.Draws`, `Sifted.Shows`: all of a graph that was asked about.
* `Sifted.inside`: the words inside an object.
* `Mark`, `Outline.marks`: bodies and names in the order of the text.
* `Settled`: names behind the ends of bodies.

## Theorems

* `Sifted.nested`, `Sifted.accepted_inside`: words and visits.
* `Sifted.follows`: what is left follows the links of the graph.
* `Outline.settled`: the marks of grounded outlines.
* `Settled.closed`: what is written by name has been closed under that name.
-/

namespace GraphText.Writer

/-- A word with a filter: a question about an object with its answer, or word that the object has
    been written. -/
inductive Word where
  | enter (r : Ref) (accepted : Bool)
  | exit (r : Ref)
  deriving DecidableEq

/-- The word of an event, if it is one. -/
def Event.word? {σ : Type} : Event σ → Option Word
  | .entered r accepted _ => some (.enter r accepted)
  | .exited r _ => some (.exit r)
  | _ => none

/-- The words among some events, in order. -/
def wordsOf {σ : Type} (events : List (Event σ)) : List Word :=
  events.filterMap Event.word?

/-- The objects that are accepted, in order. -/
def accepted (words : List Word) : List Ref :=
  words.filterMap fun
    | .enter r true => some r
    | _ => none

theorem accepted_append (ws vs : List Word) : accepted (ws ++ vs) = accepted ws ++ accepted vs :=
  List.filterMap_append

/-- An accepted object encloses words up to its end, and a rejected one does not. -/
inductive Nested : List Word → Prop where
  | nil : Nested []
  | rejected {r : Ref} {rest : List Word} (hrest : Nested rest) : Nested (.enter r false :: rest)
  | accepted {r : Ref} {inside rest : List Word} (hinside : Nested inside) (hrest : Nested rest) :
    Nested (.enter r true :: inside ++ .exit r :: rest)

theorem Nested.append {ws vs : List Word} (hw : Nested ws) (hv : Nested vs) :
    Nested (ws ++ vs) := by
  induction hw with
  | nil => exact hv
  | rejected _ ih => exact .rejected ih
  | accepted hinside _ _ ih =>
      rw [List.append_assoc]
      exact .accepted hinside ih

/-- The filter gives these answers, if it is in the first state before the events, and is in the
    other one behind them. -/
def Heard {σ : Type} (f : Filter σ) (h : Heap) : σ → List (Event σ) → σ → Prop
  | before, [], after => before = after
  | before, .entered r accepted state :: rest, after =>
    f.enter before (h.get r) = (accepted, state) ∧ Heard f h state rest after
  | before, .exited r state :: rest, after =>
    f.exit before (h.get r) = state ∧ Heard f h state rest after
  | before, .text _ :: rest, after => Heard f h before rest after
  | before, .label _ :: rest, after => Heard f h before rest after

theorem Heard.append {σ : Type} {f : Filter σ} {h : Heap} {before between after : σ}
    {events more : List (Event σ)} (hfirst : Heard f h before events between)
    (hmore : Heard f h between more after) : Heard f h before (events ++ more) after := by
  induction events generalizing before with
  | nil =>
      cases hfirst
      exact hmore
  | cons event events ih =>
      cases event with
      | text s => exact ih hfirst
      | label r => exact ih hfirst
      | entered r accepted state => exact ⟨hfirst.1, ih hfirst.2⟩
      | exited r state => exact ⟨hfirst.1, ih hfirst.2⟩

/-- The first question is asked of the filter as it was before the events. -/
theorem Heard.first {σ : Type} {f : Filter σ} {h : Heap} {before after : σ}
    {events : List (Event σ)} {r : Ref} {answer : Bool} {rest : List Word}
    (hheard : Heard f h before events after) (hwords : wordsOf events = .enter r answer :: rest) :
    (f.enter before (h.get r)).1 = answer := by
  induction events with
  | nil => cases hwords
  | cons event events ih =>
      cases event with
      | text s => exact ih hheard hwords
      | label x => exact ih hheard hwords
      | entered x accepted state =>
          cases hwords
          rw [hheard.1]
      | exited x state => cases hwords

mutual

/-- What is written of an object that is accepted, and what is rejected inside of it. -/
inductive Sifted where
  | use (r : Ref) (name : String)
  | full (r : Ref) (type : String) (name : Option String) (lines : SiftedLines)

/-- The fields of a body. A field whose object is rejected has no line. -/
inductive SiftedLines where
  | nil
  | scalars (field : FieldSpec) (vs : List Value) (rest : SiftedLines)
  | object (field : FieldSpec) (t : Sifted) (rest : SiftedLines)
  | rejected (field : FieldSpec) (r : Ref) (rest : SiftedLines)
  | objects (field : FieldSpec) (ts : SiftedElements) (rest : SiftedLines)

/-- The objects of a list. An object that is rejected has no line. -/
inductive SiftedElements where
  | nil
  | cons (t : Sifted) (rest : SiftedElements)
  | rejected (r : Ref) (rest : SiftedElements)

end

/-- The object. -/
def Sifted.ref : Sifted → Ref
  | .use r _ => r
  | .full r _ _ _ => r

mutual

/-- The outline without what is rejected. -/
def Sifted.outline : Sifted → Outline
  | .use r name => .use r name
  | .full r type name lines => .full r type name lines.lines

def SiftedLines.lines : SiftedLines → Lines
  | .nil => .nil
  | .scalars field vs rest => .scalars field vs rest.lines
  | .object field t rest => .object field t.outline rest.lines
  | .rejected _ _ rest => rest.lines
  | .objects field ts rest => .objects field ts.elements rest.lines

def SiftedElements.elements : SiftedElements → Elements
  | .nil => .nil
  | .cons t rest => .cons t.outline rest.elements
  | .rejected _ rest => rest.elements

end

mutual

/-- The text of an object at a depth. A body keeps its lines apart even if all its objects are
    rejected. -/
def Sifted.text (depth : Nat) : Sifted → String
  | .use _ name => "USE " ++ quote name
  | .full _ type name .nil => header type name ++ " \x7b\x7d"
  | .full _ type name lines =>
    header type name ++ " \x7b" ++ "\n" ++ lines.text (depth + 1) ++ (indentation depth ++ "\x7d")

/-- The text of the fields of a body, which are at this depth. -/
def SiftedLines.text (depth : Nat) : SiftedLines → String
  | .nil => ""
  | .scalars field vs rest =>
    indentation depth ++ field.name ++ ": " ++ scalarsText field vs ++ ",\n" ++ rest.text depth
  | .object field t rest =>
    indentation depth ++ field.name ++ ": " ++ t.text depth ++ ",\n" ++ rest.text depth
  | .rejected _ _ rest => rest.text depth
  | .objects field ts rest =>
    indentation depth ++ field.name ++ ": " ++ ts.text depth false ++ ",\n" ++ rest.text depth

/-- The text of a list at a depth, or of the rest of it if it has begun. -/
def SiftedElements.text (depth : Nat) : Bool → SiftedElements → String
  | true, .nil => indentation depth ++ "]"
  | false, .nil => "[]"
  | begun, .cons t rest =>
    (if begun then "" else "[\n") ++ indentation (depth + 1) ++ t.text (depth + 1) ++ ",\n" ++
      rest.text depth true
  | begun, .rejected _ rest => rest.text depth begun

end

mutual

/-- The outline shows this object, and has whatever the objects that it shows in full have in the
    graph, written or rejected. -/
def Sifted.Draws (reg : Registry) (h : Heap) : Sifted → Ref → Prop
  | .use x _, r => x = r
  | .full x type _ lines, r =>
    x = r ∧ type = (h.get r).typeName ∧ lines.Draws reg h (writtenFields reg (h.get r))

/-- The lines have these fields. -/
def SiftedLines.Draws (reg : Registry) (h : Heap) :
    SiftedLines → List (FieldSpec × List Value) → Prop
  | .nil, fields => fields = []
  | .scalars field vs rest, fields =>
    ∃ others, fields = (field, vs) :: others ∧ (∀ v ∈ vs, IsScalar v) ∧ rest.Draws reg h others
  | .object field t rest, fields =>
    ∃ r others, fields = (field, [.object r]) :: others ∧ t.Draws reg h r ∧
      rest.Draws reg h others
  | .rejected field r rest, fields =>
    ∃ others, fields = (field, [.object r]) :: others ∧ rest.Draws reg h others
  | .objects field ts rest, fields =>
    ∃ rs others, fields = (field, [.objects rs]) :: others ∧ ts.Draws reg h rs ∧
      rest.Draws reg h others

/-- The lines have these objects. -/
def SiftedElements.Draws (reg : Registry) (h : Heap) : SiftedElements → List Ref → Prop
  | .nil, rs => rs = []
  | .cons t rest, rs => ∃ r others, rs = r :: others ∧ t.Draws reg h r ∧ rest.Draws reg h others
  | .rejected r rest, rs => ∃ others, rs = r :: others ∧ rest.Draws reg h others

end

mutual

/-- The same for graphs that keep anything in their fields: what is neither one object nor one list
    of objects is written side by side, objects among it by nothing at all. -/
def Sifted.Shows (reg : Registry) (h : Heap) : Sifted → Ref → Prop
  | .use x _, r => x = r
  | .full x type _ lines, r =>
    x = r ∧ type = (h.get r).typeName ∧ lines.Shows reg h (writtenFields reg (h.get r))

def SiftedLines.Shows (reg : Registry) (h : Heap) :
    SiftedLines → List (FieldSpec × List Value) → Prop
  | .nil, fields => fields = []
  | .scalars field vs rest, fields =>
    ∃ others, fields = (field, vs) :: others ∧ IsFlat vs ∧ rest.Shows reg h others
  | .object field t rest, fields =>
    ∃ r others, fields = (field, [.object r]) :: others ∧ t.Shows reg h r ∧
      rest.Shows reg h others
  | .rejected field r rest, fields =>
    ∃ others, fields = (field, [.object r]) :: others ∧ rest.Shows reg h others
  | .objects field ts rest, fields =>
    ∃ rs others, fields = (field, [.objects rs]) :: others ∧ ts.Shows reg h rs ∧
      rest.Shows reg h others

def SiftedElements.Shows (reg : Registry) (h : Heap) : SiftedElements → List Ref → Prop
  | .nil, rs => rs = []
  | .cons t rest, rs => ∃ r others, rs = r :: others ∧ t.Shows reg h r ∧ rest.Shows reg h others
  | .rejected r rest, rs => ∃ others, rs = r :: others ∧ rest.Shows reg h others

end

mutual

/-- The words between the question about an object and the word that it has been written. -/
def Sifted.inside : Sifted → List Word
  | .use _ _ => []
  | .full _ _ _ lines => lines.words

def SiftedLines.words : SiftedLines → List Word
  | .nil => []
  | .scalars _ _ rest => rest.words
  | .object _ t rest => .enter t.ref true :: t.inside ++ .exit t.ref :: rest.words
  | .rejected _ r rest => .enter r false :: rest.words
  | .objects _ ts rest => ts.words ++ rest.words

def SiftedElements.words : SiftedElements → List Word
  | .nil => []
  | .cons t rest => .enter t.ref true :: t.inside ++ .exit t.ref :: rest.words
  | .rejected r rest => .enter r false :: rest.words

end

theorem Sifted.ref_of_draws {reg : Registry} {h : Heap} {t : Sifted} {r : Ref}
    (hdraws : t.Draws reg h r) : t.ref = r := by
  cases t with
  | use x name => exact hdraws
  | full x type name lines => exact hdraws.1

theorem Sifted.ref_of_shows {reg : Registry} {h : Heap} {t : Sifted} {r : Ref}
    (hshows : t.Shows reg h r) : t.ref = r := by
  cases t with
  | use x name => exact hshows
  | full x type name lines => exact hshows.1

mutual

theorem Sifted.nested (t : Sifted) : Nested t.inside := by
  cases t with
  | use r name => exact .nil
  | full r type name lines => exact lines.nested

theorem SiftedLines.nested (ls : SiftedLines) : Nested ls.words := by
  cases ls with
  | nil => exact .nil
  | scalars field vs rest => exact rest.nested
  | object field t rest => exact .accepted t.nested rest.nested
  | rejected field r rest => exact .rejected rest.nested
  | objects field ts rest => exact ts.nested.append rest.nested

theorem SiftedElements.nested (ts : SiftedElements) : Nested ts.words := by
  cases ts with
  | nil => exact .nil
  | cons t rest => exact .accepted t.nested rest.nested
  | rejected r rest => exact .rejected rest.nested

end

/-- Around the words inside an accepted object nothing else is accepted. -/
theorem accepted_around (r : Ref) (inside rest : List Word) :
    accepted (.enter r true :: inside ++ .exit r :: rest) =
      r :: (accepted inside ++ accepted rest) := by
  rw [accepted_append]
  rfl

mutual

/-- What is accepted is what is shown. -/
theorem Sifted.accepted_inside (t : Sifted) :
    t.ref :: accepted t.inside = t.outline.visits.map Visit.ref := by
  cases t with
  | use r name => rfl
  | full r type name lines => exact congrArg (r :: ·) lines.accepted_words

theorem SiftedLines.accepted_words (ls : SiftedLines) :
    accepted ls.words = ls.lines.visits.map Visit.ref := by
  cases ls with
  | nil => rfl
  | scalars field vs rest => exact rest.accepted_words
  | object field t rest =>
      rw [SiftedLines.words, accepted_around, rest.accepted_words, SiftedLines.lines, Lines.visits,
        List.map_append, ← t.accepted_inside, List.cons_append]
  | rejected field r rest => exact rest.accepted_words
  | objects field ts rest =>
      rw [SiftedLines.words, accepted_append, ts.accepted_words, rest.accepted_words,
        SiftedLines.lines, Lines.visits, List.map_append]

theorem SiftedElements.accepted_words (ts : SiftedElements) :
    accepted ts.words = ts.elements.visits.map Visit.ref := by
  cases ts with
  | nil => rfl
  | cons t rest =>
      rw [SiftedElements.words, accepted_around, rest.accepted_words, SiftedElements.elements,
        Elements.visits, List.map_append, ← t.accepted_inside, List.cons_append]
  | rejected r rest => exact rest.accepted_words

end

section

variable {reg : Registry} {h : Heap}

mutual

/-- What is left of an outline of a graph follows its links. -/
theorem Sifted.follows (t : Sifted) {r : Ref} (hdraws : t.Draws reg h r) :
    t.outline.Follows (h.Linked reg.visibleOf) r := by
  cases t with
  | use x name => exact hdraws
  | full x type name lines =>
      rcases hdraws with ⟨hx, -, hlines⟩
      exact ⟨hx, lines.follows hlines fun line hline y => linked_of_writtenFields hline⟩

theorem SiftedLines.follows (ls : SiftedLines) {r : Ref} {fields : List (FieldSpec × List Value)}
    (hdraws : ls.Draws reg h fields)
    (hfields : ∀ line ∈ fields, ∀ x ∈ line.2.flatMap Value.refs, h.Linked reg.visibleOf r x) :
    ls.lines.Follows (h.Linked reg.visibleOf) r := by
  cases ls with
  | nil => trivial
  | scalars field vs rest =>
      rcases hdraws with ⟨others, rfl, -, hrest⟩
      exact rest.follows hrest fun line hline => hfields line (List.mem_cons_of_mem _ hline)
  | object field t rest =>
      rcases hdraws with ⟨x, others, rfl, ht, hrest⟩
      exact ⟨⟨x, hfields _ List.mem_cons_self x (by simp [Value.refs]), t.follows ht⟩,
        rest.follows hrest fun line hline => hfields line (List.mem_cons_of_mem _ hline)⟩
  | rejected field x rest =>
      rcases hdraws with ⟨others, rfl, hrest⟩
      exact rest.follows hrest fun line hline => hfields line (List.mem_cons_of_mem _ hline)
  | objects field ts rest =>
      rcases hdraws with ⟨rs, others, rfl, hts, hrest⟩
      have hlinks : ∀ x ∈ rs, h.Linked reg.visibleOf r x :=
        fun x hx => hfields _ List.mem_cons_self x (by simpa [Value.refs] using hx)
      exact ⟨ts.follows hts hlinks,
        rest.follows hrest fun line hline => hfields line (List.mem_cons_of_mem _ hline)⟩

theorem SiftedElements.follows (ts : SiftedElements) {r : Ref} {rs : List Ref}
    (hdraws : ts.Draws reg h rs) (hlinks : ∀ x ∈ rs, h.Linked reg.visibleOf r x) :
    ts.elements.Follows (h.Linked reg.visibleOf) r := by
  cases ts with
  | nil => trivial
  | cons t rest =>
      rcases hdraws with ⟨x, others, rfl, ht, hrest⟩
      exact ⟨⟨x, hlinks x List.mem_cons_self, t.follows ht⟩,
        rest.follows hrest fun y hy => hlinks y (List.mem_cons_of_mem _ hy)⟩
  | rejected x rest =>
      rcases hdraws with ⟨others, rfl, hrest⟩
      exact rest.follows hrest fun y hy => hlinks y (List.mem_cons_of_mem _ hy)

end

mutual

/-- What shows a graph draws it, if all that can be reached keeps objects, lists of objects or
    scalars. -/
theorem Sifted.draws (t : Sifted) {root r : Ref} (hshows : t.Shows reg h r)
    (hreach : h.Reaches reg.visibleOf root r)
    (hshaped : ∀ x, h.Reaches reg.visibleOf root x →
      ∀ line ∈ writtenFields reg (h.get x), IsShaped line.2) : t.Draws reg h r := by
  cases t with
  | use x name => exact hshows
  | full x type name lines =>
      rcases hshows with ⟨hx, htype, hlines⟩
      refine ⟨hx, htype, lines.draws hlines (hshaped r hreach) ?_ hshaped⟩
      exact fun line hline y hy => hreach.tail (linked_of_writtenFields hline hy)

theorem SiftedLines.draws (ls : SiftedLines) {root : Ref}
    {fields : List (FieldSpec × List Value)} (hshows : ls.Shows reg h fields)
    (hshape : ∀ line ∈ fields, IsShaped line.2)
    (hreach : ∀ line ∈ fields, ∀ x ∈ line.2.flatMap Value.refs, h.Reaches reg.visibleOf root x)
    (hshaped : ∀ x, h.Reaches reg.visibleOf root x →
      ∀ line ∈ writtenFields reg (h.get x), IsShaped line.2) : ls.Draws reg h fields := by
  -- What is known of all lines is known of those behind the first.
  have hbehind : ∀ {line others}, fields = line :: others →
      (∀ other ∈ others, IsShaped other.2) ∧ ∀ other ∈ others, ∀ x ∈ other.2.flatMap Value.refs,
        h.Reaches reg.visibleOf root x := by
    rintro line others rfl
    exact ⟨fun other hother => hshape other (List.mem_cons_of_mem _ hother),
      fun other hother => hreach other (List.mem_cons_of_mem _ hother)⟩
  cases ls with
  | nil => exact hshows
  | scalars field vs rest =>
      rcases hshows with ⟨others, hfields, hflat, hrest⟩
      have hrest' := rest.draws hrest (hbehind hfields).1 (hbehind hfields).2 hshaped
      refine ⟨others, hfields, ?_, hrest'⟩
      -- What is flat and of the right shape is neither an object nor a list of objects.
      rcases hshape (field, vs) (hfields ▸ List.mem_cons_self) with ⟨r, hr⟩ | ⟨rs, hrs⟩ | hscalars
      · exact absurd hr (hflat.1 r)
      · exact absurd hrs (hflat.2 rs)
      · exact hscalars
  | object field t rest =>
      rcases hshows with ⟨x, others, hfields, ht, hrest⟩
      have hx : h.Reaches reg.visibleOf root x :=
        hreach (field, [.object x]) (hfields ▸ List.mem_cons_self) x (by simp [Value.refs])
      exact ⟨x, others, hfields, t.draws ht hx hshaped,
        rest.draws hrest (hbehind hfields).1 (hbehind hfields).2 hshaped⟩
  | rejected field x rest =>
      rcases hshows with ⟨others, hfields, hrest⟩
      exact ⟨others, hfields, rest.draws hrest (hbehind hfields).1 (hbehind hfields).2 hshaped⟩
  | objects field ts rest =>
      rcases hshows with ⟨rs, others, hfields, hts, hrest⟩
      have hrs : ∀ x ∈ rs, h.Reaches reg.visibleOf root x := fun x hx =>
        hreach (field, [.objects rs]) (hfields ▸ List.mem_cons_self) x
          (by simpa [Value.refs] using hx)
      exact ⟨rs, others, hfields, ts.draws hts hrs hshaped,
        rest.draws hrest (hbehind hfields).1 (hbehind hfields).2 hshaped⟩

theorem SiftedElements.draws (ts : SiftedElements) {root : Ref} {rs : List Ref}
    (hshows : ts.Shows reg h rs) (hreach : ∀ x ∈ rs, h.Reaches reg.visibleOf root x)
    (hshaped : ∀ x, h.Reaches reg.visibleOf root x →
      ∀ line ∈ writtenFields reg (h.get x), IsShaped line.2) : ts.Draws reg h rs := by
  cases ts with
  | nil => exact hshows
  | cons t rest =>
      rcases hshows with ⟨x, others, rfl, ht, hrest⟩
      exact ⟨x, others, rfl, t.draws ht (hreach x List.mem_cons_self) hshaped,
        rest.draws hrest (fun y hy => hreach y (List.mem_cons_of_mem _ hy)) hshaped⟩
  | rejected x rest =>
      rcases hshows with ⟨others, rfl, hrest⟩
      exact ⟨others, rfl,
        rest.draws hrest (fun y hy => hreach y (List.mem_cons_of_mem _ hy)) hshaped⟩

end

end

/-- A place in a text where the body of an object begins or ends, or where an object is written by
    name. -/
inductive Mark where
  | opened (r : Ref) (name : Option String)
  | closed (r : Ref) (name : Option String)
  | used (r : Ref) (name : String)

mutual

/-- The marks of an outline in the order of its text. -/
def Outline.marks : Outline → List Mark
  | .use r name => [.used r name]
  | .full r _ name lines => .opened r name :: lines.marks ++ [.closed r name]

def Lines.marks : Lines → List Mark
  | .nil => []
  | .scalars _ _ rest => rest.marks
  | .object _ o rest => o.marks ++ rest.marks
  | .objects _ os rest => os.marks ++ rest.marks

def Elements.marks : Elements → List Mark
  | .nil => []
  | .cons o rest => o.marks ++ rest.marks

end

/-- The objects that are closed, in order. -/
def closedOf (ms : List Mark) : List Ref :=
  ms.filterMap fun
    | .closed r _ => some r
    | _ => none

/-- Objects are written by their names, and by name only if they are among these or their bodies
    have ended before. -/
def Settled (names : Ref → Option String) : List Ref → List Mark → Prop
  | _, [] => True
  | done, .opened _ _ :: rest => Settled names done rest
  | done, .closed r name :: rest => name = names r ∧ Settled names (done ++ [r]) rest
  | done, .used r name :: rest => some name = names r ∧ r ∈ done ∧ Settled names done rest

section

variable {names : Ref → Option String} {done more : List Ref} {ms ns : List Mark}

theorem append_subset_append {α : Type} {as bs as' bs' : List α} (ha : as ⊆ as') (hb : bs ⊆ bs') :
    as ++ bs ⊆ as' ++ bs' :=
  List.append_subset.2
    ⟨List.subset_append_of_subset_left _ ha, List.subset_append_of_subset_right _ hb⟩

theorem closedOf_append (ms ns : List Mark) : closedOf (ms ++ ns) = closedOf ms ++ closedOf ns :=
  List.filterMap_append

/-- It does no harm if more is done. -/
theorem Settled.mono (hm : Settled names done ms) (hsub : done ⊆ more) : Settled names more ms := by
  induction ms generalizing done more with
  | nil => trivial
  | cons m ms ih =>
      cases m with
      | opened r name => exact ih hm hsub
      | closed r name =>
          exact ⟨hm.1, ih hm.2 (append_subset_append hsub (List.Subset.refl _))⟩
      | used r name => exact ⟨hm.1, hsub hm.2.1, ih hm.2.2 hsub⟩

/-- Marks one after another: what the first ones close is done for the others. -/
theorem Settled.append (hm : Settled names done ms) (hn : Settled names (done ++ closedOf ms) ns) :
    Settled names done (ms ++ ns) := by
  induction ms generalizing done with
  | nil => exact hn.mono (by simp [closedOf])
  | cons m ms ih =>
      cases m with
      | opened r name => exact ih hm hn
      | closed r name => exact ⟨hm.1, ih hm.2 (hn.mono (by simp [closedOf]))⟩
      | used r name => exact ⟨hm.1, hm.2.1, ih hm.2.2 hn⟩

/-- An object that is written by name has been closed under that name. -/
theorem Settled.closed {before after : List Mark} {r : Ref} {name : String}
    (h : Settled names done (before ++ .used r name :: after)) :
    some name = names r ∧ (r ∈ done ∨ .closed r (some name) ∈ before) := by
  induction before generalizing done with
  | nil => exact ⟨h.1, .inl h.2.1⟩
  | cons m before ih =>
      -- An object that is done when the others follow was done before, or has just been closed.
      cases m with
      | opened x other =>
          rcases ih h with ⟨hname, hr⟩
          exact ⟨hname, hr.imp_right (List.mem_cons_of_mem _)⟩
      | used x other =>
          rcases ih h.2.2 with ⟨hname, hr⟩
          exact ⟨hname, hr.imp_right (List.mem_cons_of_mem _)⟩
      | closed x other =>
          rcases ih h.2 with ⟨hname, hr⟩
          refine ⟨hname, ?_⟩
          rcases hr with hr | hr
          · rcases List.mem_append.1 hr with hr | hr
            · exact .inl hr
            · rw [List.mem_singleton.1 hr] at hname ⊢
              rw [hname, ← h.1]
              exact .inr List.mem_cons_self
          · exact .inr (List.mem_cons_of_mem _ hr)

mutual

/-- What is shown in full is closed. -/
theorem Outline.fulls_subset (o : Outline) : fulls o.visits ⊆ closedOf o.marks := by
  cases o with
  | use r name => exact List.nil_subset _
  | full r type name lines =>
      have hmarks : closedOf (Outline.full r type name lines).marks = closedOf lines.marks ++ [r] :=
        closedOf_append lines.marks [.closed r name]
      rw [hmarks]
      exact List.cons_subset.2 ⟨List.mem_append_right _ List.mem_cons_self,
        fun x hx => List.mem_append_left _ (lines.fulls_subset hx)⟩

theorem Lines.fulls_subset (ls : Lines) : fulls ls.visits ⊆ closedOf ls.marks := by
  cases ls with
  | nil => exact List.nil_subset _
  | scalars field vs rest => exact rest.fulls_subset
  | object field o rest =>
      rw [Lines.visits, Lines.marks, fulls_append, closedOf_append]
      exact append_subset_append o.fulls_subset rest.fulls_subset
  | objects field os rest =>
      rw [Lines.visits, Lines.marks, fulls_append, closedOf_append]
      exact append_subset_append os.fulls_subset rest.fulls_subset

theorem Elements.fulls_subset (os : Elements) : fulls os.visits ⊆ closedOf os.marks := by
  cases os with
  | nil => exact List.nil_subset _
  | cons o rest =>
      rw [Elements.visits, Elements.marks, fulls_append, closedOf_append]
      exact append_subset_append o.fulls_subset rest.fulls_subset

end

mutual

/-- What is written by name is visited. -/
theorem Outline.visit_of_used (o : Outline) {r : Ref} {name : String}
    (hused : .used r name ∈ o.marks) : ⟨r, some name, false⟩ ∈ o.visits := by
  cases o with
  | use x other =>
      cases List.mem_singleton.1 hused
      exact List.mem_cons_self
  | full x type other lines =>
      have hlines : .used r name ∈ lines.marks := by simpa [Outline.marks] using hused
      exact List.mem_cons_of_mem _ (lines.visit_of_used hlines)

theorem Lines.visit_of_used (ls : Lines) {r : Ref} {name : String}
    (hused : .used r name ∈ ls.marks) : ⟨r, some name, false⟩ ∈ ls.visits := by
  cases ls with
  | nil => cases hused
  | scalars field vs rest => exact rest.visit_of_used hused
  | object field o rest =>
      exact List.mem_append.2 ((List.mem_append.1 hused).imp o.visit_of_used rest.visit_of_used)
  | objects field os rest =>
      exact List.mem_append.2 ((List.mem_append.1 hused).imp os.visit_of_used rest.visit_of_used)

theorem Elements.visit_of_used (os : Elements) {r : Ref} {name : String}
    (hused : .used r name ∈ os.marks) : ⟨r, some name, false⟩ ∈ os.visits := by
  cases os with
  | nil => cases hused
  | cons o rest =>
      exact List.mem_append.2 ((List.mem_append.1 hused).imp o.visit_of_used rest.visit_of_used)

end

mutual

/-- In a grounded outline objects are written by name behind their bodies. -/
theorem Outline.settled (o : Outline) {done : List Ref} (hground : o.Grounded done)
    (hnamed : ∀ v ∈ o.visits, v.name = names v.ref) : Settled names done o.marks := by
  cases o with
  | use r name => exact ⟨hnamed _ List.mem_cons_self, hground, trivial⟩
  | full r type name lines =>
      have hlines := lines.settled hground fun v hv => hnamed v (List.mem_cons_of_mem _ hv)
      have hend : Settled names (done ++ closedOf lines.marks) [.closed r name] :=
        ⟨hnamed _ List.mem_cons_self, trivial⟩
      exact hlines.append hend

theorem Lines.settled (ls : Lines) {done : List Ref} (hground : ls.Grounded done)
    (hnamed : ∀ v ∈ ls.visits, v.name = names v.ref) : Settled names done ls.marks := by
  cases ls with
  | nil => trivial
  | scalars field vs rest => exact rest.settled hground hnamed
  | object field o rest =>
      have ho := o.settled hground.1 fun v hv => hnamed v (List.mem_append_left _ hv)
      have hrest := rest.settled hground.2 fun v hv => hnamed v (List.mem_append_right _ hv)
      exact ho.append (hrest.mono (append_subset_append (List.Subset.refl _) o.fulls_subset))
  | objects field os rest =>
      have hos := os.settled hground.1 fun v hv => hnamed v (List.mem_append_left _ hv)
      have hrest := rest.settled hground.2 fun v hv => hnamed v (List.mem_append_right _ hv)
      exact hos.append (hrest.mono (append_subset_append (List.Subset.refl _) os.fulls_subset))

theorem Elements.settled (os : Elements) {done : List Ref} (hground : os.Grounded done)
    (hnamed : ∀ v ∈ os.visits, v.name = names v.ref) : Settled names done os.marks := by
  cases os with
  | nil => trivial
  | cons o rest =>
      have ho := o.settled hground.1 fun v hv => hnamed v (List.mem_append_left _ hv)
      have hrest := rest.settled hground.2 fun v hv => hnamed v (List.mem_append_right _ hv)
      exact ho.append (hrest.mono (append_subset_append (List.Subset.refl _) o.fulls_subset))

end

end

end GraphText.Writer

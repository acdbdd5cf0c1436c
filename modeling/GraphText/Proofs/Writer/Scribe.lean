import GraphText.Proofs.Writer.Legible
import GraphText.Proofs.Writer.Outputs

/-!
# Writing as one goes

A scribe writes a graph without working out beforehand what it will write. It
has an output in hand and puts out word after word, counts how deep it is when
it opens a body or a list and counts back when it closes one, looks up the type
of an object when it comes to the object, and stops where something fails.
Nothing is taken back then: what has been put out stays on the output, and the
depth stays what it is in the middle of the graph.

A writer that works out its events first does the same. Two things have to be
seen for that. What a scribe opens it closes, so between any two lines it is as
deep as the place in the graph says. And a scribe never fails for a type that it
looks up, since everything that it comes to is part of the graph that the survey
has been through.

There is no filter here.

## Main definitions

* `Desk`, `Scribe`: what a scribe has in hand, and what it does.
* `Scribe.object`, `Scribe.value`: how a scribe writes.
* `Scribe.writeComment`, `Scribe.writeObject`, `Scribe.writeField`: the calls.
* `Does`: a scribe does what an action says.
* `Answers`: a scribe does what a call says, and answers like it.

## Theorems

* `object_does`: how a scribe writes an object.
* `writeComment_answers`, `writeObject_answers`, `writeField_answers`: the calls.
-/

namespace GraphText.Writer

/-- What a scribe has in hand: the output, how deep it is in the graph, and the objects that it has
    written. -/
structure Desk where
  sink : Sink := {}
  depth : Nat := 0
  written : List Ref := []

/-- What a scribe does. If it fails, what it has in hand stays as it is then. -/
abbrev Scribe (α : Type) := ExceptT Failure (StateM Desk) α

namespace Scribe

/-- How it ends, and what a scribe has in hand then. -/
def outcome {α : Type} (work : Scribe α) (desk : Desk) : Except Failure α × Desk :=
  StateT.run (ExceptT.run work) desk

/-- Puts out a text. -/
def put (text : String) : Scribe Unit := do
  let (sink, done) := (← get).sink.write text
  modify fun desk => { desk with sink }
  unless done do throw .output

/-- Begins a line. -/
def indent : Scribe Unit := do
  put (indentation (← get).depth)

/-- Opens a body or a list. -/
def deepen : Scribe Unit :=
  modify fun desk => { desk with depth := desk.depth + 1 }

/-- Closes a body or a list. -/
def rise : Scribe Unit :=
  modify fun desk => { desk with depth := desk.depth - 1 }

/-- Remembers that an object has been written. -/
def mark (r : Ref) : Scribe Unit :=
  modify fun desk => { desk with written := r :: desk.written }

/-- Puts out the label of an object, if that is wanted. -/
def label (labels : Bool) (r : Ref) : Scribe Unit := do
  if labels then
    let (sink, label) := (← get).sink.labelOf r
    modify fun desk => { desk with sink }
    put label

/-- What has been found, or the failure to find it. -/
def found {α : Type} : Except Cause α → Scribe α
  | .ok a => pure a
  | .error cause => throw (.graph cause)

/-- The rest of a list of objects, given how an object is written and whether there has been one. -/
def elements (object : Ref → Scribe Unit) : Bool → List Ref → Scribe Unit
  | true, [] => do
    rise
    indent
    put "]"
  | false, [] => put "[]"
  | started, r :: rest => do
    unless started do
      put "[\n"
      deepen
    indent
    object r
    put ",\n"
    elements object true rest

/-- The value of a field, given how an object is written. -/
def value (object : Ref → Scribe Unit) (field : FieldSpec) : List Value → Scribe Unit
  | [.object r] => object r
  | [.objects rs] => elements object false rs
  | vs =>
    if field.kind.isList then put ("[" ++ String.intercalate ", " (vs.map Value.text) ++ "]")
    else put (String.intercalate " " (vs.map Value.text))

/-- The line of a field. -/
def fieldLine (object : Ref → Scribe Unit) (field : FieldSpec) (vs : List Value) : Scribe Unit := do
  indent
  put (field.name ++ ": ")
  value object field vs
  put ",\n"

/-- The type of an object, and its name if it has one. -/
def head (type : String) : Option String → Scribe Unit
  | some name => do
    put type
    put (" " ++ quote name)
  | none => put type

section

variable (reg : Registry) (h : Heap) (labels : Bool)

/-- The body of an object with these lines. -/
def body (object : Ref → Scribe Unit) (r : Ref) : List (FieldSpec × List Value) → Scribe Unit
  | [] => do
    put " \x7b\x7d"
    label labels r
  | lines => do
    put " \x7b"
    label labels r
    put "\n"
    deepen
    lines.forM fun (field, vs) => fieldLine object field vs
    rise
    indent
    put "\x7d"

/-- An object in full. Its type is looked up here. -/
def full (object : Ref → Scribe Unit) (r : Ref) (name : Option String) : Scribe Unit := do
  mark r
  let spec ← found (reg.lookup (h.get r).typeName)
  head (h.get r).typeName name
  body labels object r ((spec.fields.filter fun field => !field.hidden).filterMap fun field =>
    ((h.get r).fetch? field).map fun vs => (field, vs))

/-- An object: in full, or by name if it has been written. -/
def object (names : Ref → Option String) : Nat → Ref → Scribe Unit
  | 0, _ => pure ()
  | fuel + 1, r => do
    match names r, (← get).written.contains r with
    | some name, true => put ("USE " ++ quote name)
    | name, _ => full reg h labels (object names fuel) r name

/-- An object that is not inside another, with the names of a survey. -/
def surveyed (s : Survey) : Ref → Scribe Unit :=
  object reg h labels s.name? (s.order.length + 1)

/-- Begins a new graph, of which nothing has been written. -/
def begin : Scribe Unit :=
  modify fun desk => { desk with written := [] }

/-- Writes a comment, line by line. -/
def writeComment (text : String) : Scribe Unit :=
  (Text.lines text.toList).forM fun line => put ("# " ++ String.ofList line ++ "\n")

/-- Writes an object with everything below it, from the margin. -/
def writeObject (r : Ref) : Scribe Unit := do
  let survey ← found (Survey.ofRoots reg h [r])
  begin
  modify fun desk => { desk with depth := 0 }
  surveyed reg h labels survey r
  put "\n"

/-- Writes a field with these values. -/
def writeValue (field : FieldSpec) (vs : List Value) : Scribe Bool := do
  let survey ← found (Survey.ofRoots reg h (valueRoots vs))
  begin
  put (field.name ++ ": ")
  value (surveyed reg h labels survey) field vs
  pure true

/-- Writes a field of an object, and tells whether there was anything to write. -/
def writeField (r : Ref) (name : String) : Scribe Bool := do
  let spec ← found (reg.lookup (h.get r).typeName)
  match spec.find? name with
  | none => throw (.graph (.unknownField name (h.get r).typeName))
  | some field =>
    match (h.get r).fetch? field with
    | none => pure false
    | some vs => writeValue reg h labels field vs

end

end Scribe

namespace Scribe

variable {α β : Type}

theorem outcome_bind (work : Scribe α) (more : α → Scribe β) (desk : Desk) :
    (work >>= more).outcome desk =
      match work.outcome desk with
      | (.ok a, desk) => (more a).outcome desk
      | (.error failure, desk) => (.error failure, desk) := by
  show (match StateT.run (ExceptT.run work) desk with
    | (result, desk) => ExceptT.bindCont more result desk : Except Failure β × Desk) = _
  unfold outcome
  rcases StateT.run (ExceptT.run work) desk with ⟨_ | _, desk'⟩
  · rfl
  · rfl

theorem outcome_put (text : String) (desk : Desk) :
    (put text).outcome desk =
      match desk.sink.write text with
      | (sink, true) => (.ok (), { desk with sink })
      | (sink, false) => (.error .output, { desk with sink }) := by
  unfold put
  rw [outcome_bind]
  show outcome _ desk = _
  rcases desk.sink.write text with ⟨sink, _ | _⟩
  · rfl
  · rfl

theorem outcome_get (desk : Desk) : (get : Scribe Desk).outcome desk = (.ok desk, desk) := rfl

theorem outcome_modify (f : Desk → Desk) (desk : Desk) :
    (modify f : Scribe Unit).outcome desk = (.ok (), f desk) := rfl

theorem outcome_indent (desk : Desk) :
    indent.outcome desk = (put (indentation desk.depth)).outcome desk := by
  rw [indent, outcome_bind, outcome_get]

theorem outcome_label (r : Ref) (sink : Sink) (depth : Nat) (written : List Ref) :
    (label true r).outcome ⟨sink, depth, written⟩ =
      (put (sink.labelOf r).2).outcome ⟨(sink.labelOf r).1, depth, written⟩ := by
  rw [label, if_pos rfl, outcome_bind, outcome_get]
  simp only
  rw [outcome_bind, outcome_modify]

end Scribe

/-- A scribe that starts at one depth does what an action says, as far as the output takes it. If it
    takes all, the scribe ends at the other depth. -/
structure Does (work : Scribe Unit) (before after : Nat) (action : Action Unit) : Prop where
  whole : ∀ {sink sink' : Sink} {written : List Ref},
    sink.perform () (action ⟨written, ()⟩).1 = (sink', (), true) →
      work.outcome ⟨sink, before, written⟩ =
        (.ok (), ⟨sink', after, (action ⟨written, ()⟩).2.written⟩)
  cut : ∀ {sink sink' : Sink} {written : List Ref},
    sink.perform () (action ⟨written, ()⟩).1 = (sink', (), false) →
      ∃ depth written', work.outcome ⟨sink, before, written⟩ =
        (.error .output, ⟨sink', depth, written'⟩)

namespace Does

variable {work more : Scribe Unit} {before between after : Nat} {action next : Action Unit}

theorem bind (ha : Does work before between action) (hb : Does more between after next) :
    Does (do work; more) before after (action ++ next) where
  whole {sink sink' written} h := by
    rw [Action.append_apply, Sink.perform_append] at h
    rw [Scribe.outcome_bind]
    -- If the first piece of work fails, the second one is not begun.
    rcases hfirst : sink.perform () (action ⟨written, ()⟩).1 with ⟨between, _, _ | _⟩
    · rw [hfirst] at h
      cases h
    · rw [hfirst] at h
      rw [ha.whole hfirst]
      exact hb.whole h
  cut {sink sink' written} h := by
    rw [Action.append_apply, Sink.perform_append] at h
    rw [Scribe.outcome_bind]
    rcases hfirst : sink.perform () (action ⟨written, ()⟩).1 with ⟨between, _, _ | _⟩
    · rw [hfirst] at h
      cases h
      rcases ha.cut hfirst with ⟨depth, written', hfailed⟩
      rw [hfailed]
      exact ⟨depth, written', rfl⟩
    · rw [hfirst] at h
      rw [ha.whole hfirst]
      exact hb.cut h

/-- Work that puts out nothing comes before other work. -/
theorem silently (ha : Does work before between .skip) (hb : Does more between after next) :
    Does (do work; more) before after next :=
  ha.bind hb

/-- What is put out does not depend on how the text is divided. -/
theorem congr (ha : Does work before after action)
    (hperform : ∀ (sink : Sink) written,
      sink.perform () (next ⟨written, ()⟩).1 = sink.perform () (action ⟨written, ()⟩).1)
    (hwritten : ∀ written, (next ⟨written, ()⟩).2 = (action ⟨written, ()⟩).2) :
    Does work before after next where
  whole {sink sink' written} h := by
    rw [hwritten]
    exact ha.whole ((hperform sink written).symm.trans h)
  cut {sink sink' written} h := ha.cut ((hperform sink written).symm.trans h)

theorem joined {first second : String}
    (ha : Does work before after (.text first ++ (.text second ++ action))) :
    Does work before after (.text (first ++ second) ++ action) :=
  ha.congr (fun sink _ => sink.perform_texts () first second _) fun _ => rfl

theorem joined_last {first second : String}
    (ha : Does work before after (.text first ++ .text second)) :
    Does work before after (.text (first ++ second)) :=
  ha.congr (fun sink _ => sink.perform_texts () first second _) fun _ => rfl

/-- What is to be done may be chosen by what has been written. -/
theorem chosen (h : ∀ written, ∃ work' action', Does work' before after action' ∧
    (∀ sink, work.outcome ⟨sink, before, written⟩ = work'.outcome ⟨sink, before, written⟩) ∧
    action ⟨written, ()⟩ = action' ⟨written, ()⟩) : Does work before after action where
  whole {sink sink' written} hperform := by
    rcases h written with ⟨work', action', ha, hwork, haction⟩
    rw [haction] at hperform ⊢
    rw [hwork]
    exact ha.whole hperform
  cut {sink sink' written} hperform := by
    rcases h written with ⟨work', action', ha, hwork, haction⟩
    rw [haction] at hperform
    rw [hwork]
    exact ha.cut hperform

/-- Work that puts out nothing. -/
theorem silent (h : ∀ sink written, work.outcome ⟨sink, before, written⟩ =
    (.ok (), ⟨sink, after, written⟩)) : Does work before after .skip where
  whole {sink sink' written} hperform := by
    cases hperform
    exact h sink written
  cut hperform := by cases hperform

theorem put (text : String) (depth : Nat) : Does (Scribe.put text) depth depth (.text text) where
  whole {sink sink' written} h := by
    have hwrite := (sink.perform_text () text).symm.trans h
    rw [Scribe.outcome_put]
    rcases hput : sink.write text with ⟨s, _ | _⟩
    · rw [hput] at hwrite
      cases hwrite
    · rw [hput] at hwrite
      cases hwrite
      rfl
  cut {sink sink' written} h := by
    have hwrite := (sink.perform_text () text).symm.trans h
    rw [Scribe.outcome_put]
    rcases hput : sink.write text with ⟨s, _ | _⟩
    · rw [hput] at hwrite
      cases hwrite
      exact ⟨depth, written, rfl⟩
    · rw [hput] at hwrite
      cases hwrite

theorem indent (depth : Nat) : Does Scribe.indent depth depth (.text (indentation depth)) where
  whole h := by
    rw [Scribe.outcome_indent]
    exact (put (indentation depth) depth).whole h
  cut h := by
    rw [Scribe.outcome_indent]
    exact (put (indentation depth) depth).cut h

theorem deepen (depth : Nat) : Does Scribe.deepen depth (depth + 1) .skip :=
  silent fun _ _ => rfl

theorem rise (depth : Nat) : Does Scribe.rise (depth + 1) depth .skip :=
  silent fun _ _ => rfl

theorem mark (r : Ref) (depth : Nat) : Does (Scribe.mark r) depth depth (.mark r) where
  whole h := by
    cases h
    rfl
  cut h := by cases h

/-- The filter that lets everything be written accepts every object. -/
theorem entered (ha : Does work before after action) (h : Heap) (r : Ref) (no : Action Unit) :
    Does work before after (.ifEntered .all h r action no) :=
  ha.congr (fun _ _ => rfl) fun _ => rfl

/-- And it has nothing to do when it is told that an object has been written. -/
theorem told (ha : Does work before after action) (h : Heap) (r : Ref) :
    Does work before after (action ++ .exit .all h r) := by
  refine ha.congr (fun sink written => ?_) fun _ => rfl
  rw [Action.append_apply, Sink.perform_append]
  rcases sink.perform () (action ⟨written, ()⟩).1 with ⟨s, _, _ | _⟩
  · rfl
  · rfl

theorem label (w : Setting Unit) (r : Ref) (depth : Nat) :
    Does (Scribe.label w.labels r) depth depth (w.label r) := by
  cases hlabels : w.labels with
  | false =>
      have hnone : w.label r = .skip := if_neg (Bool.eq_false_iff.1 hlabels)
      rw [hnone]
      exact silent fun _ _ => rfl
  | true =>
      have hlabel : w.label r = .label r := if_pos hlabels
      rw [hlabel]
      constructor
      · intro sink sink' written h
        rw [Scribe.outcome_label]
        exact (put (sink.labelOf r).2 depth).whole h
      · intro sink sink' written h
        rw [Scribe.outcome_label]
        exact (put (sink.labelOf r).2 depth).cut h

end Does

section

variable {w : Setting Unit} {object : Ref → Scribe Unit} {draw : Nat → Ref → Action Unit}

/-- The objects of a list are one deeper than the list, and so is the scribe once it has opened the
    list. -/
theorem elements_does (hfilter : w.filter = .all) (depth : Nat) {rs : List Ref} (started : Bool)
    (hobject : ∀ r ∈ rs, Does (object r) (depth + 1) (depth + 1) (draw (depth + 1) r)) :
    Does (Scribe.elements object started rs) (if started then depth + 1 else depth) depth
      (w.elements (draw (depth + 1)) depth started rs) := by
  induction rs generalizing started with
  | nil =>
      -- Brackets are opened with the first element and closed one level further out, if any was
      -- opened.
      cases started with
      | false => exact .put "[]" depth
      | true =>
          have hclosed := (Does.rise depth).silently ((Does.indent depth).bind (.put "]" depth))
          exact hclosed.joined_last
  | cons r rs ih =>
      have hline : Does (do
            Scribe.indent
            object r
            Scribe.put ",\n"
            Scribe.elements object true rs)
          (depth + 1) depth (.text (indentation (depth + 1)) ++
            ((draw (depth + 1) r ++ .exit w.filter w.heap r) ++
              (.text ",\n" ++ w.elements (draw (depth + 1)) depth true rs))) := by
        rw [hfilter]
        refine (Does.indent (depth + 1)).bind (((hobject r List.mem_cons_self).told _ r).bind ?_)
        exact (Does.put ",\n" (depth + 1)).bind
          (ih true fun x hx => hobject x (List.mem_cons_of_mem r hx))
      have hopened : w.elements (draw (depth + 1)) depth started (r :: rs) =
          .ifEntered .all w.heap r ((if started then .skip else .text "[\n") ++
            (.text (indentation (depth + 1)) ++ ((draw (depth + 1) r ++ .exit w.filter w.heap r) ++
              (.text ",\n" ++ w.elements (draw (depth + 1)) depth true rs))))
            (w.elements (draw (depth + 1)) depth started rs) := by
        rw [← hfilter, Setting.elements]
        simp only [Action.append_assoc]
      rw [hopened]
      cases started with
      | true => exact hline.entered w.heap r _
      | false =>
          have hfirst := (Does.put "[\n" depth).bind ((Does.deepen depth).silently hline)
          exact hfirst.entered w.heap r _

theorem mem_refs_of_valueRoots {r : Ref} {vs : List Value} (hr : r ∈ valueRoots vs) :
    r ∈ vs.flatMap Value.refs := by
  unfold valueRoots at hr
  split at hr
  · simpa [Value.refs] using hr
  · simpa [Value.refs] using hr
  · cases hr

theorem value_does (hfilter : w.filter = .all) (depth : Nat) (field : FieldSpec) {vs : List Value}
    (hobject : ∀ r ∈ valueRoots vs, ∀ depth, Does (object r) depth depth (draw depth r)) :
    Does (Scribe.value object field vs) depth depth (w.value draw depth field vs) := by
  unfold Scribe.value
  split
  next r =>
    have hdone := (hobject r List.mem_cons_self depth).told w.heap r
    rwa [← hfilter] at hdone
  next rs =>
    exact elements_does hfilter depth false fun r hr => hobject r hr (depth + 1)
  next hone hmany =>
    rw [Setting.value.eq_3 w draw depth field vs hone hmany]
    split
    · exact .put _ depth
    · exact .put _ depth

/-- Nothing is rejected. -/
theorem unlessRejected_does (hfilter : w.filter = .all) (vs : List Value) {work : Scribe Unit}
    {before after : Nat} {action : Action Unit} (ha : Does work before after action) :
    Does work before after (w.unlessRejected vs action) := by
  unfold Setting.unlessRejected
  split
  · rw [hfilter]
    exact ha.entered w.heap _ .skip
  · exact ha

theorem fieldLine_does (hfilter : w.filter = .all) (depth : Nat) (field : FieldSpec)
    {vs : List Value}
    (hobject : ∀ r ∈ valueRoots vs, ∀ depth, Does (object r) depth depth (draw depth r)) :
    Does (Scribe.fieldLine object field vs) depth depth (w.fieldLine draw depth field vs) := by
  have hline : Does (Scribe.fieldLine object field vs) depth depth
      (.text (indentation depth ++ field.name ++ ": ") ++ w.value draw depth field vs ++
        .text ",\n") := by
    rw [String.append_assoc, Action.append_assoc]
    refine Does.joined ((Does.indent depth).bind ((Does.put (field.name ++ ": ") depth).bind ?_))
    exact (value_does hfilter depth field hobject).bind (.put ",\n" depth)
  exact unlessRejected_does hfilter vs hline

theorem lines_does (hfilter : w.filter = .all) (depth : Nat)
    (lines : List (FieldSpec × List Value))
    (hobject : ∀ line ∈ lines, ∀ r ∈ valueRoots line.2, ∀ depth,
      Does (object r) depth depth (draw depth r)) :
    Does (lines.forM fun (field, vs) => Scribe.fieldLine object field vs) depth depth
      (.sequence (lines.map fun (field, vs) => w.fieldLine draw depth field vs)) := by
  induction lines with
  | nil => exact .silent fun _ _ => rfl
  | cons line lines ih =>
      exact (fieldLine_does hfilter depth line.1 (hobject line List.mem_cons_self)).bind
        (ih fun other hother => hobject other (List.mem_cons_of_mem line hother))

theorem head_does (type : String) (name : Option String) (depth : Nat) :
    Does (Scribe.head type name) depth depth (.text (header type name)) := by
  cases name with
  | none => exact .put type depth
  | some name =>
      have hhead := ((Does.put type depth).bind (.put (" " ++ quote name) depth)).joined_last
      rwa [← String.append_assoc] at hhead

/-- An object of a registered type in full. -/
theorem full_does (hfilter : w.filter = .all) (depth : Nat) {r : Ref} (name : Option String)
    (hregistered : w.registry.contains (w.heap.get r).typeName = true)
    (hobject : ∀ x, w.heap.Linked w.registry.visibleOf r x → ∀ depth,
      Does (object x) depth depth (draw depth x)) :
    Does (Scribe.full w.registry w.heap w.labels object r name) depth depth
      (w.full draw depth r name) := by
  rcases Option.isSome_iff_exists.1 hregistered with ⟨spec, hspec⟩
  have hlookup : w.registry.lookup (w.heap.get r).typeName = .ok spec :=
    Registry.lookup_eq_ok_iff.2 hspec
  have hlines : writtenFields w.registry (w.heap.get r) =
      (spec.fields.filter fun field => !field.hidden).filterMap fun field =>
        ((w.heap.get r).fetch? field).map fun vs => (field, vs) := by
    rw [writtenFields, Registry.visibleOf, Registry.fieldsOf, hspec]
  have hhead := head_does (w.heap.get r).typeName name depth
  have hfound : Scribe.found (.ok spec) = (pure spec : Scribe ObjectSpec) := rfl
  unfold Scribe.full
  rw [hlookup, hfound]
  simp only [pure_bind]
  rw [← hlines]
  -- The same pieces in the same order; the lines are one level deeper than the brackets around
  -- them.
  cases hfields : writtenFields w.registry (w.heap.get r) with
  | nil =>
      rw [full_of_nil hfields]
      refine (Does.mark r depth).bind (Does.joined (hhead.bind ?_))
      exact (Does.put " \x7b\x7d" depth).bind (.label w r depth)
  | cons line lines =>
      rw [full_of_cons hfields]
      refine (Does.mark r depth).bind (Does.joined (hhead.bind ?_))
      refine (Does.put " \x7b" depth).bind ((Does.label w r depth).bind ?_)
      refine (Does.put "\n" depth).bind ((Does.deepen depth).silently ?_)
      refine (lines_does hfilter (depth + 1) (line :: lines) fun other hother x hx => ?_).bind ?_
      · exact hobject x (linked_of_writtenFields (hfields ▸ hother) (mem_refs_of_valueRoots hx))
      · exact (Does.rise depth).silently ((Does.indent depth).bind (.put "\x7d" depth)).joined_last

end

/-- An object of a graph of registered types. -/
theorem object_does {w : Setting Unit} (hfilter : w.filter = .all) (names : Ref → Option String)
    (fuel depth : Nat) {r : Ref} (hregistered : ∀ x, w.heap.Reaches w.registry.visibleOf r x →
      w.registry.contains (w.heap.get x).typeName = true) :
    Does (Scribe.object w.registry w.heap w.labels names fuel r) depth depth
      (w.object names fuel depth r) := by
  induction fuel generalizing depth r with
  | zero => exact .silent fun _ _ => rfl
  | succ fuel ih =>
      have hfull := fun name => full_does hfilter depth name (hregistered r .refl)
        fun x hlink depth => ih depth fun y hy => hregistered y (.head hlink hy)
      refine .chosen fun written => ?_
      have houtcome : ∀ sink, (Scribe.object w.registry w.heap w.labels names (fuel + 1) r).outcome
          ⟨sink, depth, written⟩ =
            (match names r, written.contains r with
              | some name, true => Scribe.put ("USE " ++ quote name)
              | name, _ => Scribe.full w.registry w.heap w.labels
                  (Scribe.object w.registry w.heap w.labels names fuel) r name).outcome
              ⟨sink, depth, written⟩ := fun _ => rfl
      -- By name or in full is decided by what has been written when it is decided.
      cases hname : names r with
      | none =>
          refine ⟨_, _, hfull none, fun sink => ?_, ?_⟩
          · simp only [houtcome, hname]
          · simp only [Setting.object, hname]
      | some name =>
          cases hseen : written.contains r with
          | false =>
              refine ⟨_, _, hfull (some name), fun sink => ?_, ?_⟩
              · simp only [houtcome, hname, hseen]
              · simp only [Setting.object, hname, hseen]
          | true =>
              refine ⟨_, _, .put ("USE " ++ quote name) depth, fun sink => ?_, ?_⟩
              · simp only [houtcome, hname, hseen]
              · simp only [Setting.object, hname, hseen]

/-- A scribe does what a call says, as far as the output takes it, and answers what the call says if
    it takes all. From the margin it gets back to the margin then. -/
structure Answers {α : Type} (work : Scribe α) (depth : Nat) (call : Call Unit α) : Prop where
  whole : ∀ {sink sink' : Sink}, sink.perform () call.1 = (sink', (), true) → ∀ written,
    ∃ depth' written', work.outcome ⟨sink, depth, written⟩ =
      (call.2.mapError .graph, ⟨sink', depth', written'⟩) ∧ (depth = 0 → depth' = 0)
  cut : ∀ {sink sink' : Sink}, sink.perform () call.1 = (sink', (), false) → ∀ written,
    ∃ depth' written', work.outcome ⟨sink, depth, written⟩ =
      (.error .output, ⟨sink', depth', written'⟩)

section

variable {α : Type} {work : Scribe α} {depth : Nat}

/-- Nothing is put out before an answer that does not need the graph to be written. -/
theorem Answers.still {events : List (Event Unit)} {answer : Except Cause α}
    (hevents : ∀ s : Sink, s.perform () events = (s, (), true))
    (hwork : ∀ desk, work.outcome desk = (answer.mapError .graph, desk)) :
    Answers work depth (events, answer) where
  whole {sink sink'} hperform written := by
    rw [hevents] at hperform
    cases hperform
    exact ⟨depth, written, hwork _, id⟩
  cut {sink sink'} hperform written := by
    rw [hevents] at hperform
    cases hperform

/-- An action is done from what the scribe has in hand when it begins. -/
theorem Answers.of_does {deed : Scribe Unit} {before after : Nat} {action : Action Unit}
    {events : List (Event Unit)} {answer : α} (start : List Ref → List Ref)
    (hdeed : Does deed before after action) (hafter : depth = 0 → after = 0)
    (hevents : ∀ written, (action ⟨start written, ()⟩).1 = events)
    (hwork : ∀ sink written, work.outcome ⟨sink, depth, written⟩ =
      (deed >>= fun _ => pure answer).outcome ⟨sink, before, start written⟩) :
    Answers work depth (events, .ok answer) where
  whole {sink sink'} hperform written := by
    rw [hwork, Scribe.outcome_bind, hdeed.whole ((hevents written).symm ▸ hperform)]
    exact ⟨after, _, rfl, hafter⟩
  cut {sink sink'} hperform written := by
    rcases hdeed.cut ((hevents written).symm ▸ hperform) with ⟨depth', written', hfailed⟩
    rw [hwork, Scribe.outcome_bind, hfailed]
    exact ⟨depth', written', rfl⟩

end

theorem writeComment_answers (text : String) (depth : Nat) :
    Answers (Scribe.writeComment text) depth ([.text (commentText text)], .ok ()) := by
  have hlines : ∀ lines : List (List Char),
      Does (lines.forM fun line => Scribe.put ("# " ++ String.ofList line ++ "\n")) depth depth
        (.text (String.ofList (lines.flatMap fun line => '#' :: ' ' :: (line ++ ['\n'])))) := by
    intro lines
    -- Line by line, as lines are put out one by one here and all at once there.
    induction lines with
    | nil =>
        refine Does.congr (.silent fun _ _ => rfl) (fun sink written => ?_) fun _ => rfl
        exact (sink.perform_text () "").trans (by rw [sink.write_empty]; rfl)
    | cons line lines ih =>
        have hjoined := ((Does.put ("# " ++ String.ofList line ++ "\n") depth).bind ih).joined_last
        have htext : String.ofList ((line :: lines).flatMap fun line => '#' :: ' ' ::
            (line ++ ['\n'])) = "# " ++ String.ofList line ++ "\n" ++
              String.ofList (lines.flatMap fun line => '#' :: ' ' :: (line ++ ['\n'])) := by
          apply String.toList_injective
          simp
        rwa [← htext] at hjoined
  refine Answers.of_does id (hlines (Text.lines text.toList)) id (fun _ => rfl) fun _ _ => ?_
  rw [bind_pure_unit]
  rfl

/-- Events of a filter that is asked and lets everything be written. -/
def AreAsked (events : List (Event Unit)) : Prop :=
  ∀ event ∈ events, ∃ r, event = .entered r true ()

theorem perform_asked {events : List (Event Unit)} (h : AreAsked events) (s : Sink) :
    s.perform () events = (s, (), true) := by
  induction events with
  | nil => rfl
  | cons event events ih =>
      rcases h event List.mem_cons_self with ⟨r, rfl⟩
      exact ih fun other hother => h other (List.mem_cons_of_mem _ hother)

/-- What is written of an object by itself. -/
def objectAction (w : Setting Unit) (survey : Survey) (r : Ref) : Action Unit :=
  .ifEntered w.filter w.heap r
    (w.surveyed survey 0 r ++ .exit w.filter w.heap r ++ .text "\n") .skip

theorem objectCall_of_ok {w : Setting Unit} (hfilter : w.filter = .all) {survey : Survey} {r : Ref}
    (hs : Survey.ofRoots w.registry w.heap [r] = .ok survey) :
    objectCall w () r = ((objectAction w survey r ⟨[], ()⟩).1, .ok ()) := by
  unfold objectCall objectAction
  rw [hfilter, hs]
  rfl

theorem objectCall_of_error {w : Setting Unit} (hfilter : w.filter = .all) {cause : Cause} {r : Ref}
    (hs : Survey.ofRoots w.registry w.heap [r] = .error cause) :
    ∃ events, objectCall w () r = (events, .error cause) ∧ AreAsked events := by
  unfold objectCall
  rw [hfilter, hs]
  exact ⟨_, rfl, List.forall_mem_singleton.2 ⟨r, rfl⟩⟩

theorem writeObject_answers (w : Setting Unit) (hfilter : w.filter = .all) (r : Ref) (depth : Nat) :
    Answers (Scribe.writeObject w.registry w.heap w.labels r) depth (objectCall w () r) := by
  unfold Scribe.writeObject
  cases hs : Survey.ofRoots w.registry w.heap [r] with
  | error cause =>
      rcases objectCall_of_error hfilter hs with ⟨events, hcall, hasked⟩
      rw [hcall]
      exact .still (perform_asked hasked) fun _ => rfl
  | ok survey =>
      rw [objectCall_of_ok hfilter hs]
      have hobject := object_does hfilter survey.name? (survey.order.length + 1) 0
        (ofRoots_eq_ok_iff.1 ⟨survey, hs⟩ r List.mem_cons_self)
      have hwhole := ((hobject.told w.heap r).bind (.put "\n" 0)).entered w.heap r .skip
      rw [← hfilter] at hwhole
      refine Answers.of_does (fun _ => []) hwhole (fun _ => rfl) (fun _ => rfl) fun _ _ => ?_
      rw [bind_pure_unit]
      rfl

/-- What is written of a field with these values, at some depth. -/
def valueAction (w : Setting Unit) (survey : Survey) (depth : Nat) (field : FieldSpec)
    (vs : List Value) : Action Unit :=
  w.unlessRejected vs (.text (field.name ++ ": ") ++ w.value (w.surveyed survey) depth field vs)

theorem valueCall_of_ok {w : Setting Unit} (hfilter : w.filter = .all) {survey : Survey}
    {vs : List Value} (hs : Survey.ofRoots w.registry w.heap (valueRoots vs) = .ok survey)
    (field : FieldSpec) :
    valueCall w () field vs = ((valueAction w survey 0 field vs ⟨[], ()⟩).1, .ok true) := by
  unfold valueCall valueAction
  simp only [hfilter, hs]
  split
  next r =>
    rw [Setting.unlessRejected.eq_1, hfilter]
    rfl
  next hother =>
    rw [Setting.unlessRejected.eq_2 w vs _ hother]
    rfl

theorem valueCall_of_error {w : Setting Unit} (hfilter : w.filter = .all) {cause : Cause}
    {vs : List Value} (hs : Survey.ofRoots w.registry w.heap (valueRoots vs) = .error cause)
    (field : FieldSpec) :
    ∃ events, valueCall w () field vs = (events, .error cause) ∧ AreAsked events := by
  unfold valueCall
  simp only [hfilter, hs]
  split
  next r => exact ⟨_, rfl, List.forall_mem_singleton.2 ⟨r, rfl⟩⟩
  next => exact ⟨_, rfl, fun _ h => nomatch h⟩

theorem writeValue_answers (w : Setting Unit) (hfilter : w.filter = .all) (field : FieldSpec)
    (vs : List Value) (depth : Nat) : ∃ call, (depth = 0 → call = valueCall w () field vs) ∧
      Answers (Scribe.writeValue w.registry w.heap w.labels field vs) depth call := by
  cases hs : Survey.ofRoots w.registry w.heap (valueRoots vs) with
  | error cause =>
      rcases valueCall_of_error hfilter hs field with ⟨events, hcall, hasked⟩
      refine ⟨(events, .error cause), fun _ => hcall.symm,
        .still (perform_asked hasked) fun desk => ?_⟩
      unfold Scribe.writeValue
      rw [hs]
      rfl
  | ok survey =>
      -- A survey means that all types are registered, so the objects can be written.
      have hobject : ∀ r ∈ valueRoots vs, ∀ depth,
          Does (Scribe.surveyed w.registry w.heap w.labels survey r) depth depth
            (w.surveyed survey depth r) := fun r hr depth =>
        object_does hfilter survey.name? (survey.order.length + 1) depth
          (ofRoots_eq_ok_iff.1 ⟨survey, hs⟩ r hr)
      have hvalue := value_does hfilter depth field hobject
      have hwhole := unlessRejected_does hfilter vs
        ((Does.put (field.name ++ ": ") depth).bind hvalue)
      refine ⟨((valueAction w survey depth field vs ⟨[], ()⟩).1, .ok true), ?_, ?_⟩
      · rintro rfl
        exact (valueCall_of_ok hfilter hs field).symm
      · refine Answers.of_does (fun _ => []) hwhole id (fun _ => rfl) fun _ _ => ?_
        unfold Scribe.writeValue
        rw [hs]
        simp only [bind_assoc]
        rfl

theorem writeField_answers (w : Setting Unit) (hfilter : w.filter = .all) (r : Ref) (name : String)
    (depth : Nat) : ∃ call, (depth = 0 → call = fieldCall w () r name) ∧
      Answers (Scribe.writeField w.registry w.heap w.labels r name) depth call := by
  unfold Scribe.writeField fieldCall
  -- Both look up the type, the field and the values, and give up for the same reasons.
  cases hspec : w.registry.find? (w.heap.get r).typeName with
  | none =>
      refine ⟨([], .error (.unknownType (w.heap.get r).typeName)), fun _ => ?_,
        .still (fun _ => rfl) fun desk => ?_⟩
      · simp only [hspec]
      · rw [Registry.lookup, hspec]
        rfl
  | some spec =>
      have hlookup : w.registry.lookup (w.heap.get r).typeName = .ok spec :=
        Registry.lookup_eq_ok_iff.2 hspec
      have hfound : Scribe.found (.ok spec) = (pure spec : Scribe ObjectSpec) := rfl
      rw [hlookup, hfound]
      simp only [hspec, pure_bind]
      cases hfield : spec.find? name with
      | none => exact ⟨_, fun _ => rfl, .still (fun _ => rfl) fun desk => rfl⟩
      | some field =>
          simp only
          cases hvalues : (w.heap.get r).fetch? field with
          | none => exact ⟨_, fun _ => rfl, .still (fun _ => rfl) fun desk => rfl⟩
          | some vs => exact writeValue_answers w hfilter field vs depth

end GraphText.Writer

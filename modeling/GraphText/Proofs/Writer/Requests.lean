import GraphText.Proofs.Writer.Scribe

/-!
# What writers are asked for

A writer without a filter is asked for comments, objects and fields, one after
another and on one output. No request is influenced by those before it: what it
puts out is what it would put out on a new output, and it is answered as it
would be there. The only thing that passes from one to the next is how labels
are numbered, and the numbers of objects on the new output are taken to be the
same. If no objects are labelled, there is nothing to number.

A request that cannot be granted because of the graph leaves nothing behind. It
is refused before anything is put out, exactly if the graph has an object of an
unknown type, the object whose field is wanted is one, or it has no such field.
And if the output does not take all that is put out, it has taken as much as it
could.

All this is true in the same way of a scribe, who writes word by word and could
be stopped anywhere.

## Main definitions

* `Request`: a comment, an object or a field.
* `Writer.carryOut`, `Writer.carryOutAll`: granting requests.
* `Scribe.carryOut`, `Scribe.carryOutAll`: the same, word by word.
* `Action.Unlabelled`: an action that puts out no labels.
* `Request.IsFaulty`: what is wrong with a request.
* `leaving`, `Scribe.leaving`: what is left on an output, and the answer.
* `IsCut`: an outcome with little room, compared with one with room for all.

## Theorems

* `carryOut_eq`: requests are calls.
* `call_settles`: a request is refused at once, or it is granted.
* `requests_compose`: many requests one after another.
* `request_cut`: a request on an output with a limit.
-/

namespace GraphText.Writer

/-- What is asked of a writer. The heap is what it is at that time. -/
inductive Request where
  | comment (text : String)
  | object (registry : Registry) (heap : Heap) (root : Ref)
  | field (registry : Registry) (heap : Heap) (r : Ref) (name : String)

/-- A registry and a heap, and no filter. -/
def Setting.unfiltered (reg : Registry) (h : Heap) (labels : Bool) : Setting Unit where
  registry := reg
  heap := h
  filter := .all
  labels := labels

/-- Grants a request. Only a field has an answer. -/
def carryOut (w : Writer Unit) (labels : Bool) :
    Request → Writer Unit × Except Failure (Option Bool)
  | .comment text => (w.comment text).map id (Except.map fun () => none)
  | .object reg h root =>
    (w.object (.unfiltered reg h labels) root).map id (Except.map fun () => none)
  | .field reg h r name => (w.field (.unfiltered reg h labels) r name).map id (Except.map some)

/-- Grants requests one after another. -/
def carryOutAll (w : Writer Unit) (labels : Bool) :
    List Request → Writer Unit × List (Except Failure (Option Bool))
  | [] => (w, [])
  | q :: qs =>
    let (w, answer) := w.carryOut labels q
    let (w, answers) := carryOutAll w labels qs
    (w, answer :: answers)

namespace Scribe

/-- Grants a request, word by word. -/
def carryOut (labels : Bool) : Request → Scribe (Option Bool)
  | .comment text => do
    writeComment text
    pure none
  | .object reg h root => do
    writeObject reg h labels root
    pure none
  | .field reg h r name => do
    let answer ← writeField reg h labels r name
    pure (some answer)

/-- Grants requests one after another, also after some have failed. -/
def carryOutAll (labels : Bool) (desk : Desk) :
    List Request → List (Except Failure (Option Bool)) × Desk
  | [] => ([], desk)
  | q :: qs =>
    let (answer, desk) := (carryOut labels q).outcome desk
    let (answers, desk) := carryOutAll labels desk qs
    (answer :: answers, desk)

end Scribe

/-- The call that a request is. -/
def Request.call (labels : Bool) : Request → Call Unit (Option Bool)
  | .comment text => ([.text (commentText text)], .ok none)
  | .object reg h root =>
    (objectCall (.unfiltered reg h labels) () root).map id (Except.map fun () => none)
  | .field reg h r name => (fieldCall (.unfiltered reg h labels) () r name).map id (Except.map some)

section

variable {w : Writer Unit} {α β : Type}

theorem perform_of_whole (call : Call Unit α) {sink : Sink}
    (h : w.sink.perform w.filter call.1 = (sink, (), true)) :
    w.perform call = (⟨sink, ()⟩, call.2.mapError .graph) := by
  unfold Writer.perform
  rw [h]

theorem perform_of_cut (call : Call Unit α) {sink : Sink}
    (h : w.sink.perform w.filter call.1 = (sink, (), false)) :
    w.perform call = (⟨sink, ()⟩, .error .output) := by
  unfold Writer.perform
  rw [h]

theorem perform_map (w : Writer Unit) (call : Call Unit α) (f : α → β) :
    (w.perform call).map id (Except.map f) = w.perform (call.map id (Except.map f)) := by
  rcases hperform : w.sink.perform w.filter call.1 with ⟨sink, _, _ | _⟩
  · rw [perform_of_cut call hperform, perform_of_cut (call.map id (Except.map f)) hperform]
    rfl
  · rw [perform_of_whole call hperform, perform_of_whole (call.map id (Except.map f)) hperform]
    rcases call with ⟨events, _ | _⟩
    · rfl
    · rfl

/-- Requests are calls. -/
theorem carryOut_eq (w : Writer Unit) (labels : Bool) (q : Request) :
    w.carryOut labels q = w.perform (q.call labels) := by
  cases q with
  | comment text => exact perform_map w _ _
  | object reg h root => exact perform_map w _ _
  | field reg h r name => exact perform_map w _ _

theorem Answers.map {work : Scribe α} {depth : Nat} {call : Call Unit α}
    (h : Answers work depth call) (f : α → β) :
    Answers (do
      let a ← work
      pure (f a)) depth (call.map id (Except.map f)) where
  whole {sink sink'} hperform written := by
    rcases h.whole hperform written with ⟨depth', written', hwhole, hdepth⟩
    refine ⟨depth', written', ?_, hdepth⟩
    rw [Scribe.outcome_bind, hwhole]
    rcases call with ⟨events, _ | _⟩
    · rfl
    · rfl
  cut {sink sink'} hperform written := by
    rcases h.cut hperform written with ⟨depth', written', hcut⟩
    refine ⟨depth', written', ?_⟩
    rw [Scribe.outcome_bind, hcut]

theorem carryOut_answers (labels : Bool) (q : Request) (depth : Nat) :
    ∃ call, (depth = 0 → call = q.call labels) ∧
      Answers (Scribe.carryOut labels q) depth call := by
  cases q with
  | comment text =>
      exact ⟨_, fun _ => rfl,
        (writeComment_answers text depth).map fun _ => (none : Option Bool)⟩
  | object reg h root =>
      exact ⟨_, fun _ => rfl,
        (writeObject_answers (.unfiltered reg h labels) rfl root depth).map
          fun _ => (none : Option Bool)⟩
  | field reg h r name =>
      rcases writeField_answers (.unfiltered reg h labels) rfl r name depth with
        ⟨call, hcall, hanswers⟩
      refine ⟨call.map id (Except.map some), fun hzero => ?_, hanswers.map some⟩
      rw [hcall hzero]
      rfl

end

/-- An action that puts out no labels. -/
def Action.Unlabelled {σ : Type} (action : Action σ) : Prop :=
  ∀ p r, .label r ∉ (action p).1

namespace Action.Unlabelled

variable {σ : Type} {a b : Action σ}

theorem append (ha : a.Unlabelled) (hb : b.Unlabelled) : (a ++ b).Unlabelled := by
  intro p r hr
  rw [Action.append_apply] at hr
  rcases List.mem_append.1 hr with hr | hr
  · exact ha p r hr
  · exact hb _ r hr

theorem text (s : String) : (Action.text s : Action σ).Unlabelled := by
  intro p r hr
  cases List.mem_singleton.1 hr

theorem skip : (Action.skip : Action σ).Unlabelled :=
  fun _ _ hr => nomatch hr

theorem mark (r : Ref) : (Action.mark r : Action σ).Unlabelled :=
  fun _ _ hr => nomatch hr

theorem exit (f : Filter σ) (h : Heap) (r : Ref) : (Action.exit f h r).Unlabelled := by
  intro p x hx
  cases List.mem_singleton.1 hx

theorem ifEntered (f : Filter σ) (h : Heap) (r : Ref) (ha : a.Unlabelled) (hb : b.Unlabelled) :
    (Action.ifEntered f h r a b).Unlabelled := by
  intro p x hx
  rcases List.mem_cons.1 hx with hx | hx
  · cases hx
  · cases hanswer : (f.enter p.filter (h.get r)).1 with
    | false =>
        rw [hanswer] at hx
        exact hb _ x hx
    | true =>
        rw [hanswer] at hx
        exact ha _ x hx

theorem sequence {actions : List (Action σ)} (h : ∀ a ∈ actions, a.Unlabelled) :
    (Action.sequence actions).Unlabelled := by
  induction actions with
  | nil => exact skip
  | cons a actions ih =>
      exact (h a List.mem_cons_self).append (ih fun b hb => h b (List.mem_cons_of_mem a hb))

variable {w : Setting σ} {draw : Nat → Ref → Action σ}

theorem elements (hdraw : ∀ depth r, (draw depth r).Unlabelled) (depth : Nat) (started : Bool)
    (rs : List Ref) : (w.elements (draw (depth + 1)) depth started rs).Unlabelled := by
  induction rs generalizing started with
  | nil => cases started <;> exact text _
  | cons r rs ih =>
      have hopen : (if started then .skip else .text "[\n" : Action σ).Unlabelled := by
        split
        · exact skip
        · exact text _
      rw [Setting.elements.eq_3]
      refine ifEntered _ _ r (append ?_ (ih true)) (ih started)
      exact (((hopen.append (text _)).append (hdraw _ r)).append (exit _ _ r)).append (text _)

theorem value (hdraw : ∀ depth r, (draw depth r).Unlabelled) (depth : Nat) (field : FieldSpec)
    (vs : List Value) : (w.value draw depth field vs).Unlabelled := by
  unfold Setting.value
  split
  · exact (hdraw depth _).append (exit _ _ _)
  · exact elements hdraw depth false _
  · split
    · exact text _
    · exact text _

theorem unlessRejected (ha : a.Unlabelled) (vs : List Value) :
    (w.unlessRejected vs a).Unlabelled := by
  unfold Setting.unlessRejected
  split
  · exact ifEntered _ _ _ ha skip
  · exact ha

theorem full (hlabels : w.labels = false) (hdraw : ∀ depth r, (draw depth r).Unlabelled)
    (depth : Nat) (r : Ref) (name : Option String) : (w.full draw depth r name).Unlabelled := by
  have hlabel : w.label r = .skip := if_neg (Bool.eq_false_iff.1 hlabels)
  cases hfields : writtenFields w.registry (w.heap.get r) with
  | nil =>
      rw [full_of_nil hfields, hlabel]
      exact (mark r).append ((text _).append skip)
  | cons line lines =>
      rw [full_of_cons hfields, hlabel]
      refine (mark r).append ((text _).append (skip.append ((text _).append (append ?_ (text _)))))
      refine sequence fun b hb => ?_
      rcases List.mem_map.1 hb with ⟨⟨field, vs⟩, -, rfl⟩
      exact (((text _).append (value hdraw _ field vs)).append (text _)).unlessRejected vs

theorem object (hlabels : w.labels = false) (names : Ref → Option String) (fuel depth : Nat)
    (r : Ref) : (w.object names fuel depth r).Unlabelled := by
  induction fuel generalizing depth r with
  | zero => exact skip
  | succ fuel ih =>
      intro p x hx
      unfold Setting.object at hx
      split at hx
      · exact text _ p x hx
      · exact full hlabels ih depth r _ p x hx

end Action.Unlabelled

theorem unlabelled_of_asked {events : List (Event Unit)} (h : AreAsked events) (r : Ref) :
    .label r ∉ events := by
  intro hr
  rcases h _ hr with ⟨x, hx⟩
  cases hx

theorem objectCall_unlabelled (w : Setting Unit) (hfilter : w.filter = .all)
    (hlabels : w.labels = false) (root r : Ref) : .label r ∉ (objectCall w () root).1 := by
  cases hs : Survey.ofRoots w.registry w.heap [root] with
  | error cause =>
      rcases objectCall_of_error hfilter hs with ⟨events, hcall, hasked⟩
      rw [hcall]
      exact unlabelled_of_asked hasked r
  | ok survey =>
      rw [objectCall_of_ok hfilter hs]
      have hobject := Action.Unlabelled.object hlabels survey.name? (survey.order.length + 1) 0 root
      exact ((hobject.append (.exit _ _ root)).append (.text "\n")).ifEntered _ _ root .skip
        ⟨[], ()⟩ r

theorem valueCall_unlabelled (w : Setting Unit) (hfilter : w.filter = .all)
    (hlabels : w.labels = false) (field : FieldSpec) (vs : List Value) (r : Ref) :
    .label r ∉ (valueCall w () field vs).1 := by
  cases hs : Survey.ofRoots w.registry w.heap (valueRoots vs) with
  | error cause =>
      rcases valueCall_of_error hfilter hs field with ⟨events, hcall, hasked⟩
      rw [hcall]
      exact unlabelled_of_asked hasked r
  | ok survey =>
      rw [valueCall_of_ok hfilter hs field]
      exact ((Action.Unlabelled.text (field.name ++ ": ")).append (.value
        (Action.Unlabelled.object hlabels _ _) 0 field vs)).unlessRejected vs ⟨[], ()⟩ r

/-- If labels are not wanted, no request puts any out. -/
theorem call_unlabelled (q : Request) (r : Ref) : .label r ∉ (q.call false).1 := by
  cases q with
  | comment text => exact Action.Unlabelled.text (commentText text) ⟨[], ()⟩ r
  | object reg h root => exact objectCall_unlabelled (.unfiltered reg h false) rfl rfl root r
  | field reg h x name =>
      show .label r ∉ (fieldCall (.unfiltered reg h false) () x name).1
      unfold fieldCall
      simp only
      split
      next => exact List.not_mem_nil
      next spec _ =>
        split
        next => exact List.not_mem_nil
        next field _ =>
          split
          next => exact List.not_mem_nil
          next vs _ =>
            exact valueCall_unlabelled (.unfiltered reg h false) rfl rfl field vs r

/-- Some object below another one is of a type that is not registered. -/
def HasUnknown (reg : Registry) (h : Heap) (root : Ref) : Prop :=
  ∃ r, h.Reaches reg.visibleOf root r ∧ reg.contains (h.get r).typeName = false

/-- A request cannot be granted because of the graph: an object of an unknown type would be written,
    or the type of the object is unknown or has no such field. -/
def Request.IsFaulty : Request → Prop
  | .comment _ => False
  | .object reg h root => HasUnknown reg h root
  | .field reg h r name =>
    let wanted := (reg.find? (h.get r).typeName).bind (·.find? name)
    wanted = none ∨ ∃ vs, wanted.bind (h.get r).fetch? = some vs ∧
      ∃ root ∈ valueRoots vs, HasUnknown reg h root

theorem exists_unknown_iff {reg : Registry} {h : Heap} {roots : List Ref} :
    (∃ root ∈ roots, HasUnknown reg h root) ↔ ¬ ∃ s, Survey.ofRoots reg h roots = .ok s := by
  rw [ofRoots_eq_ok_iff]
  constructor
  · rintro ⟨root, hroot, r, hr, hunknown⟩ hregistered
    rw [hregistered root hroot r hr] at hunknown
    cases hunknown
  · intro hnot
    refine Classical.byContradiction fun hnone => hnot fun root hroot r hr => ?_
    refine Bool.of_not_eq_false fun hunknown => hnone ⟨root, hroot, r, hr, hunknown⟩

/-- A request that is faulty fails and asks at most before that, and any other is granted. -/
def Settles {α : Type} (faulty : Prop) (call : Call Unit α) : Prop :=
  (faulty ∧ ∃ events cause, call = (events, .error cause) ∧ AreAsked events) ∨
    ¬ faulty ∧ ∃ events answer, call = (events, .ok answer)

theorem Settles.map {α β : Type} {faulty : Prop} {call : Call Unit α} (h : Settles faulty call)
    (f : α → β) : Settles faulty (call.map id (Except.map f)) := by
  rcases h with ⟨hfaulty, events, cause, rfl, hasked⟩ | ⟨hfine, events, answer, rfl⟩
  · exact .inl ⟨hfaulty, events, cause, rfl, hasked⟩
  · exact .inr ⟨hfine, events, f answer, rfl⟩

theorem Settles.congr {α : Type} {faulty wrong : Prop} {call : Call Unit α}
    (h : Settles faulty call) (hiff : wrong ↔ faulty) : Settles wrong call :=
  propext hiff ▸ h

theorem objectCall_settles (w : Setting Unit) (hfilter : w.filter = .all) (root : Ref) :
    Settles (HasUnknown w.registry w.heap root) (objectCall w () root) := by
  have hiff : HasUnknown w.registry w.heap root ↔
      ¬ ∃ s, Survey.ofRoots w.registry w.heap [root] = .ok s := by
    rw [← exists_unknown_iff]
    simp only [List.mem_singleton, exists_eq_left]
  cases hs : Survey.ofRoots w.registry w.heap [root] with
  | error cause =>
      rcases objectCall_of_error hfilter hs with ⟨events, hcall, hasked⟩
      refine .inl ⟨hiff.2 ?_, events, cause, hcall, hasked⟩
      rintro ⟨s, hok⟩
      cases hs.symm.trans hok
  | ok survey =>
      exact .inr ⟨fun hunknown => hiff.1 hunknown ⟨survey, hs⟩, _, _, objectCall_of_ok hfilter hs⟩

theorem valueCall_settles (w : Setting Unit) (hfilter : w.filter = .all) (field : FieldSpec)
    (vs : List Value) : Settles (∃ root ∈ valueRoots vs, HasUnknown w.registry w.heap root)
      (valueCall w () field vs) := by
  cases hs : Survey.ofRoots w.registry w.heap (valueRoots vs) with
  | error cause =>
      rcases valueCall_of_error hfilter hs field with ⟨events, hcall, hasked⟩
      refine .inl ⟨exists_unknown_iff.2 ?_, events, cause, hcall, hasked⟩
      rintro ⟨s, hok⟩
      cases hs.symm.trans hok
  | ok survey =>
      exact .inr ⟨fun hunknown => exists_unknown_iff.1 hunknown ⟨survey, hs⟩, _, _,
        valueCall_of_ok hfilter hs field⟩

theorem fieldCall_settles (reg : Registry) (h : Heap) (labels : Bool) (r : Ref) (name : String) :
    Settles (Request.field reg h r name).IsFaulty
      (fieldCall (.unfiltered reg h labels) () r name) := by
  have hasked : AreAsked [] := fun _ h => nomatch h
  -- The type, the field and the values are looked up in this order, and only the values may lead to
  -- other objects.
  cases hspec : reg.find? (h.get r).typeName with
  | none =>
      refine .inl ⟨.inl ?_, [], .unknownType (h.get r).typeName, ?_, hasked⟩
      · rw [hspec, Option.bind_none]
      · simp only [fieldCall, Setting.unfiltered, hspec]
  | some spec =>
      cases hwanted : spec.find? name with
      | none =>
          refine .inl ⟨.inl ?_, [], .unknownField name (h.get r).typeName, ?_, hasked⟩
          · rw [hspec, Option.bind_some, hwanted]
          · simp only [fieldCall, Setting.unfiltered, hspec, hwanted]
      | some wanted =>
          have hfound : (reg.find? (h.get r).typeName).bind (·.find? name) = some wanted := by
            rw [hspec, Option.bind_some, hwanted]
          cases hvalues : (h.get r).fetch? wanted with
          | none =>
              refine .inr ⟨?_, [], false, ?_⟩
              · simp [Request.IsFaulty, hfound, hvalues]
              · simp only [fieldCall, Setting.unfiltered, hspec, hwanted, hvalues]
          | some vs =>
              have hcall : fieldCall (.unfiltered reg h labels) () r name =
                  valueCall (.unfiltered reg h labels) () wanted vs := by
                simp only [fieldCall, Setting.unfiltered, hspec, hwanted, hvalues]
              have hfaulty : (Request.field reg h r name).IsFaulty ↔
                  ∃ root ∈ valueRoots vs, HasUnknown reg h root := by
                simp [Request.IsFaulty, hfound, hvalues]
              rw [hcall]
              exact (valueCall_settles (.unfiltered reg h labels) rfl wanted vs).congr hfaulty

/-- Every request is settled: refused because it is faulty, or granted. -/
theorem call_settles (labels : Bool) (q : Request) : Settles q.IsFaulty (q.call labels) := by
  cases q with
  | comment text => exact .inr ⟨id, _, _, rfl⟩
  | object reg h root => exact (objectCall_settles (.unfiltered reg h labels) rfl root).map _
  | field reg h r name => exact (fieldCall_settles reg h labels r name).map _

/-- What a request leaves on an output, and how it is answered. -/
def leaving (s : Sink) (labels : Bool) (q : Request) : ByteArray × Except Failure (Option Bool) :=
  let (w, answer) := (⟨s, ()⟩ : Writer Unit).carryOut labels q
  (w.sink.bytes, answer)

/-- What a scribe leaves, and how it answers. -/
def Scribe.leaving (desk : Desk) (labels : Bool) (q : Request) :
    ByteArray × Except Failure (Option Bool) :=
  let (answer, desk) := (Scribe.carryOut labels q).outcome desk
  (desk.sink.bytes, answer)

/-- One outcome is another one as far as there was room for it. Both are what is on the output,
    where something has been before, and the answer. What is left is the part that fits, and the
    output is said to have failed if and only if that is not all; otherwise the answers are the
    same. -/
def IsCut {α : Type} (before : ByteArray) (room : Nat)
    (whole cut : ByteArray × Except Failure α) : Prop :=
  ∃ text : ByteArray, whole.1 = before ++ text ∧ whole.2 ≠ .error .output ∧
    cut.1 = before ++ text.extract 0 (min room text.size) ∧
    (cut.2 = .error .output ↔ room < text.size) ∧ (text.size ≤ room → cut.2 = whole.2)

theorem mapError_ne_output {α : Type} (answer : Except Cause α) :
    answer.mapError Failure.graph ≠ .error .output := by
  cases answer with
  | error cause => exact fun h => nomatch h
  | ok a => exact fun h => nomatch h

/-- Whatever carries out a call on an output leaves on one with a limit what fits. -/
theorem isCut_of_perform {α : Type} (call : Call Unit α)
    (left : Sink → ByteArray × Except Failure α)
    (hwhole : ∀ {s s' : Sink}, s.perform () call.1 = (s', (), true) →
      left s = (s'.bytes, call.2.mapError .graph))
    (hcut : ∀ {s s' : Sink}, s.perform () call.1 = (s', (), false) →
      left s = (s'.bytes, .error .output))
    (bytes : ByteArray) (labelled : List Ref) (room : Nat) :
    IsCut bytes room (left ⟨bytes, none, labelled⟩)
      (left ⟨bytes, some (bytes.size + room), labelled⟩) := by
  rcases exists_leaves labelled () call.1 with ⟨text, labelled', _, hleaves, -⟩
  refine ⟨text.toByteArray, ?_⟩
  rw [hwhole (hleaves.unlimited bytes)]
  refine ⟨rfl, mapError_ne_output call.2, ?_⟩
  -- The text fits into the room, or the output fails in the middle of it.
  by_cases hroom : text.toByteArray.size ≤ room
  · rw [hwhole (hleaves.within bytes room hroom), Nat.min_eq_right hroom,
      ByteArray.extract_zero_size]
    exact ⟨rfl, iff_of_false (mapError_ne_output call.2) (Nat.not_lt_of_le hroom), fun _ => rfl⟩
  · rcases hleaves.beyond bytes room (Nat.lt_of_not_le hroom) with ⟨labelled'', _, hperform⟩
    rw [hcut hperform, Nat.min_eq_left (Nat.le_of_not_le hroom)]
    exact ⟨rfl, iff_of_true rfl (Nat.lt_of_not_le hroom), fun h => absurd h hroom⟩

/-- A request leaves on an output with room for so many bytes the first bytes of what it leaves on
    one without a limit, as many as there is room for. It is answered that the output has failed if
    and only if that is not all, and as on the other output otherwise. So does a scribe, wherever in
    a graph it may have been stopped before. -/
theorem request_cut (labels : Bool) (q : Request) (bytes : ByteArray) (labelled : List Ref)
    (room : Nat) :
    let unlimited : Sink := ⟨bytes, none, labelled⟩
    let limited : Sink := ⟨bytes, some (bytes.size + room), labelled⟩
    IsCut bytes room (leaving unlimited labels q) (leaving limited labels q) ∧
      ∀ depth written, IsCut bytes room (Scribe.leaving ⟨unlimited, depth, written⟩ labels q)
        (Scribe.leaving ⟨limited, depth, written⟩ labels q) := by
  -- The writer that works by events and the one that works by hand put out the same events.
  refine ⟨?_, fun depth written => ?_⟩
  · refine isCut_of_perform (q.call labels) (fun s => leaving s labels q) (fun hperform => ?_)
      (fun hperform => ?_) bytes labelled room
    · unfold leaving
      rw [carryOut_eq, perform_of_whole _ hperform]
    · unfold leaving
      rw [carryOut_eq, perform_of_cut _ hperform]
  · rcases carryOut_answers labels q depth with ⟨call, -, hanswers⟩
    refine isCut_of_perform call (fun s => Scribe.leaving ⟨s, depth, written⟩ labels q)
      (fun hperform => ?_) (fun hperform => ?_) bytes labelled room
    · rcases hanswers.whole hperform written with ⟨depth', written', hwhole, -⟩
      unfold Scribe.leaving
      rw [hwhole]
    · rcases hanswers.cut hperform written with ⟨depth', written', hcut⟩
      unfold Scribe.leaving
      rw [hcut]

/-- A request on an output without a limit: what is put out is what a new output gets on which the
    same objects have been labelled, also if more objects have been labelled there. -/
theorem carryOut_unlimited (labels : Bool) (q : Request) (labelled : List Ref) :
    ∃ text labelled' answer, labelled <+: labelled' ∧ (labels = false → labelled' = labelled) ∧
      (∀ bytes, (⟨⟨bytes, none, labelled⟩, ()⟩ : Writer Unit).carryOut labels q =
        (⟨⟨bytes ++ text, none, labelled'⟩, ()⟩, answer)) ∧
      (∀ bytes written, ∃ written',
        (Scribe.carryOut labels q).outcome ⟨⟨bytes, none, labelled⟩, 0, written⟩ =
          (answer, ⟨⟨bytes ++ text, none, labelled'⟩, 0, written'⟩)) ∧
      ∀ all, labelled' <+: all → leaving { labelled := all } labels q = (text, answer) := by
  rcases exists_leaves labelled () (q.call labels).1 with
    ⟨text, labelled', _, hleaves, hmore, hall, hnone⟩
  refine ⟨text.toByteArray, labelled', (q.call labels).2.mapError .graph, hmore, ?_,
    fun bytes => ?_, fun bytes written => ?_, fun all hprefix => ?_⟩
  · rintro rfl
    exact hnone (call_unlabelled q)
  · rw [carryOut_eq]
    exact perform_of_whole _ (hleaves.unlimited bytes)
  · -- A scribe that starts at the margin is back at the margin when all has been put out.
    rcases carryOut_answers labels q 0 with ⟨call, hcall, hanswers⟩
    rw [hcall rfl] at hanswers
    rcases hanswers.whole (hleaves.unlimited bytes) written with ⟨depth, written', hwhole, hdepth⟩
    rw [hdepth rfl] at hwhole
    exact ⟨written', hwhole⟩
  · have hperform := (hall all hprefix).unlimited .empty
    rw [ByteArray.empty_append] at hperform
    unfold leaving
    rw [carryOut_eq, perform_of_whole _ hperform]

/-- What some requests leave, each on a new output with these labels, one behind the other. -/
def allLeft (all : List Ref) (labels : Bool) (qs : List Request) : ByteArray :=
  (qs.map fun q => (leaving { labelled := all } labels q).1).foldr (· ++ ·) .empty

/-- How some requests are answered, each on a new output with these labels. -/
def allAnswers (all : List Ref) (labels : Bool) (qs : List Request) :
    List (Except Failure (Option Bool)) :=
  qs.map fun q => (leaving { labelled := all } labels q).2

/-- Requests on an output without a limit, whatever is on it. -/
theorem carryOutAll_unlimited (labels : Bool) (qs : List Request) (labelled : List Ref) :
    ∃ all, labelled <+: all ∧ (labels = false → all = labelled) ∧
      (∀ bytes, (⟨⟨bytes, none, labelled⟩, ()⟩ : Writer Unit).carryOutAll labels qs =
        (⟨⟨bytes ++ allLeft all labels qs, none, all⟩, ()⟩, allAnswers all labels qs)) ∧
      ∀ bytes written, ∃ written',
        Scribe.carryOutAll labels ⟨⟨bytes, none, labelled⟩, 0, written⟩ qs =
          (allAnswers all labels qs,
            ⟨⟨bytes ++ allLeft all labels qs, none, all⟩, 0, written'⟩) := by
  induction qs generalizing labelled with
  | nil =>
      refine ⟨labelled, List.prefix_refl _, fun _ => rfl, fun bytes => ?_,
        fun bytes written => ⟨written, ?_⟩⟩
      · simp [carryOutAll, allLeft, allAnswers]
      · simp [Scribe.carryOutAll, allLeft, allAnswers]
  | cons q qs ih =>
      rcases carryOut_unlimited labels q labelled with
        ⟨text, labelled', answer, hfirst, hsame, hone, hscribe, hfresh⟩
      -- The labels of the first request are there when the others begin, and more come to them.
      rcases ih labelled' with ⟨all, hmore, hnone, hrest, hscribes⟩
      have hleft : allLeft all labels (q :: qs) = text ++ allLeft all labels qs := by
        simp [allLeft, hfresh all hmore]
      have hanswers : allAnswers all labels (q :: qs) = answer :: allAnswers all labels qs := by
        simp [allAnswers, hfresh all hmore]
      refine ⟨all, hfirst.trans hmore, fun h => (hnone h).trans (hsame h), fun bytes => ?_,
        fun bytes written => ?_⟩
      · rw [carryOutAll, hone]
        simp only [hrest, hleft, hanswers, ByteArray.append_assoc]
      · rcases hscribe bytes written with ⟨between, hwork⟩
        rcases hscribes (bytes ++ text) between with ⟨written', hworks⟩
        refine ⟨written', ?_⟩
        rw [Scribe.carryOutAll, hwork]
        simp only [hworks, hleft, hanswers, ByteArray.append_assoc]

/-- A request that is refused because of the graph leaves a writer as it was. -/
theorem carryOut_refused (w : Writer Unit) (labels : Bool) {q : Request} (hq : q.IsFaulty) :
    ∃ cause, w.carryOut labels q = (w, .error (.graph cause)) := by
  rcases call_settles labels q with ⟨-, events, cause, hcall, hasked⟩ | ⟨hfine, -⟩
  · refine ⟨cause, ?_⟩
    have hperform : w.sink.perform w.filter (q.call labels).1 = (w.sink, (), true) := by
      rw [hcall]
      exact perform_asked hasked w.sink
    rw [carryOut_eq, perform_of_whole _ hperform, hcall]
    rfl
  · exact absurd hq hfine

theorem carryOutAll_append (w : Writer Unit) (labels : Bool) (qs more : List Request) :
    w.carryOutAll labels (qs ++ more) =
      (((w.carryOutAll labels qs).1.carryOutAll labels more).1,
        (w.carryOutAll labels qs).2 ++
          ((w.carryOutAll labels qs).1.carryOutAll labels more).2) := by
  induction qs generalizing w with
  | nil => rfl
  | cons q qs ih => simp only [List.cons_append, carryOutAll, ih]

theorem length_carryOutAll (w : Writer Unit) (labels : Bool) (qs : List Request) :
    (w.carryOutAll labels qs).2.length = qs.length := by
  induction qs generalizing w with
  | nil => rfl
  | cons q qs ih => simp only [carryOutAll, List.length_cons, ih]

/-- Without a request that is refused, the others leave the same and are answered alike. -/
theorem carryOutAll_without (w : Writer Unit) (labels : Bool) (before : List Request) {q : Request}
    (after : List Request) (hq : q.IsFaulty) :
    w.carryOutAll labels (before ++ after) =
      ((w.carryOutAll labels (before ++ q :: after)).1,
        (w.carryOutAll labels (before ++ q :: after)).2.eraseIdx before.length) := by
  rcases carryOut_refused (w.carryOutAll labels before).1 labels hq with ⟨cause, hrefused⟩
  rw [carryOutAll_append, carryOutAll_append, carryOutAll, hrefused]
  simp only
  rw [← length_carryOutAll w labels before, List.eraseIdx_append_of_length_le (Nat.le_refl _),
    Nat.sub_self, List.eraseIdx_cons_zero]

/-- Requests on a new output without a limit. What they put out is, one behind the other, what each
    of them puts out on a new output, and they are answered as they are there. A new output has
    labels for the same objects, if there are any. A scribe does the same and ends at the margin.
    What fails among the requests are those that are faulty. They fail because of the graph, put
    out nothing, and could as well have been left out. -/
theorem requests_compose (labels : Bool) (qs : List Request) :
    ∃ all, (labels = false → all = []) ∧
      (⟨{}, ()⟩ : Writer Unit).carryOutAll labels qs =
        (⟨⟨allLeft all labels qs, none, all⟩, ()⟩, allAnswers all labels qs) ∧
      (∃ written, Scribe.carryOutAll labels {} qs =
        (allAnswers all labels qs, ⟨⟨allLeft all labels qs, none, all⟩, 0, written⟩)) ∧
      ∀ before q after, qs = before ++ q :: after →
        (¬ q.IsFaulty → ∃ answer, (leaving { labelled := all } labels q).2 = .ok answer) ∧
        (q.IsFaulty →
          (∃ cause, leaving { labelled := all } labels q = (.empty, .error (.graph cause))) ∧
          (⟨{}, ()⟩ : Writer Unit).carryOutAll labels (before ++ after) =
            (⟨⟨allLeft all labels qs, none, all⟩, ()⟩,
              (allAnswers all labels qs).eraseIdx before.length)) := by
  rcases carryOutAll_unlimited labels qs [] with ⟨all, -, hnone, hwhole, hscribe⟩
  have hwhole := hwhole .empty
  rcases hscribe .empty [] with ⟨written, hscribe⟩
  rw [ByteArray.empty_append] at hwhole hscribe
  refine ⟨all, hnone, hwhole, ⟨written, hscribe⟩, ?_⟩
  rintro before q after rfl
  -- What is not faulty succeeds. What is faulty is refused before anything is put out, so it leaves
  -- no trace.
  refine ⟨fun hfine => ?_, fun hq => ⟨?_, ?_⟩⟩
  · rcases call_settles labels q with ⟨hq, -⟩ | ⟨-, events, answer, hcall⟩
    · exact absurd hq hfine
    · rcases exists_leaves all () (q.call labels).1 with ⟨_, _, _, hleaves, -⟩
      refine ⟨answer, ?_⟩
      unfold leaving
      rw [carryOut_eq, perform_of_whole _ (hleaves.unlimited .empty), hcall]
      rfl
  · rcases carryOut_refused ⟨{ labelled := all }, ()⟩ labels hq with ⟨cause, hrefused⟩
    refine ⟨cause, ?_⟩
    unfold leaving
    rw [hrefused]
  · have hwithout := carryOutAll_without ⟨{}, ()⟩ labels before after hq
    rw [hwhole] at hwithout
    exact hwithout

end GraphText.Writer

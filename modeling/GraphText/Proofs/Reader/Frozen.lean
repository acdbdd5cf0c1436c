import GraphText.Proofs.Reader.References

/-!
# What has been read is frozen

Fields are stored in the object of the innermost body, and a copy is stored in
behind the `CLONE` that made it. Both are objects that are still open. Hence the
step that ends the reading of an object is the last one that could have touched
it, and does not: from the state before that step on, the object keeps its type,
name, place and fields, in a reading that fails later as in one that succeeds.
The same holds of everything that it reaches, and of every object that was there
before reading began.

A template has been read when `CLONE` finds it. So it is frozen before the copy
is made, and whatever stands in the body behind the copy is stored elsewhere.

## Main definitions

* `State.Ends`: the steps that end the reading of an object.
* `State.Frozen`: an object that stays as it is to the end of reading.
* `State.template?`: what a `CLONE` is about to copy.

## Theorems

* `completed_of_ends`: an object is complete behind the step that ends its reading.
* `frozen_of_ends`: it is frozen from the state before that step on.
* `objects_frozen`: what has been read is frozen, and what it reaches.
-/

namespace GraphText.Reader

/-- The step to the second state ends the reading of an object, which goes to a target. -/
inductive State.Ends (env : Environment) (s : State) : State → Ref → Target → Prop where
  /-- the object of a reference, of a copy or of a body -/
  | turn {token after tokens r target heap context}
      (hread : s.document.read s.document.tokens = .ok (token, after))
      (hends : Reader.Ends env.registry s.heap s.document.context token r target heap context) :
      s.Ends env { s with heap, document := { s.document with tokens, context } } r target
  /-- the object of an include, which is the one of the document that has ended -/
  | document {w rest root s'} (hmode : s.document.context.mode = .finished root)
      (hwaiting : s.waiting = w :: rest) (hresume : s.resume env w rest root = .ok s') :
      s.Ends env s' root w.target

/-- An object that nothing happens to any more: neither in the states from this one on, nor in what
    reading comes to. -/
structure State.Frozen (env : Environment) (s : State) (r : Ref) : Prop where
  same : ∀ s', Steps env s s' → s'.heap.get r = s.heap.get r
  result : ∀ out, run env s = .ok out → out.heap.get r = s.heap.get r

/-- The template that is about to be copied. -/
def State.template? (s : State) : Option Ref :=
  match s.document.context.mode with
  | .cloningFrom _ template _ _ => s.document.context.scopes.template? template
  | _ => none

section

variable {env : Environment} {base : Nat} {s s' : State} {r x : Ref}

/-- The objects of the last state are the result. -/
theorem frozen_of_same (h : ∀ s', Steps env s s' → s'.heap.get r = s.heap.get r) :
    s.Frozen env r := by
  refine ⟨h, fun out hrun => ?_⟩
  rcases steps_of_run hrun with ⟨last, hlast, hend⟩
  rw [(step_eq_inr hend).2.2.1]
  exact h last hlast

/-- An object stays frozen, and was frozen already if the step left it as it was. -/
theorem frozen_of_step (hstep : step env s = .ok (.inl s')) (h : s'.Frozen env r)
    (hsame : s'.heap.get r = s.heap.get r) : s.Frozen env r := by
  refine frozen_of_same fun t ht => ?_
  rcases Relation.ReflTransGen.cases_head ht with rfl | ⟨next, hnext, ht⟩
  · rfl
  · rw [hstep] at hnext
    cases hnext
    exact (h.same t ht).trans hsame

theorem frozen_of_completed (h : s.Sound base) (hr : Completed base s.heap s.contexts r)
    (hx : Relation.ReflTransGen s.heap.Points r x) : s.Frozen env x :=
  frozen_of_same fun _ hsteps =>
    (same_of_completed h (completed_of_points h hr hx) hsteps).2

/-- Reading stores nothing in what was there before. -/
theorem frozen_of_lt (h : s.Sound base) (hr : r < base) : s.Frozen env r := by
  refine frozen_of_same fun s' hsteps => ?_
  -- The bodies that are open have objects of their own, made since reading began.
  induction hsteps with
  | refl => rfl
  | @tail t t' hsteps hlast ih =>
      have ht := steps_sound h hsteps
      rcases step_sound ht hlast with ⟨ht', hext⟩
      have hopen : r ∉ openRefs t'.contexts := by
        intro hmem
        exact Nat.not_le_of_lt hr (ht'.sound.opened r hmem).1
      exact (hext.same r (Nat.lt_of_lt_of_le hr ht.sound.base_le) hopen).trans ih

/-- Behind the step that ends its reading, an object is complete. It was there before. -/
theorem completed_of_ends {target : Target} (h : s.Sound base)
    (hstep : step env s = .ok (.inl s')) (hends : s.Ends env s' r target) :
    r < s.heap.size ∧ Completed base s'.heap s'.contexts r := by
  cases hends with
  | turn hread hends => exact ⟨hends.lt_size h.sound, (hends.sound h.sound).2.2⟩
  | document hmode hwaiting hresume =>
      have hr := completed_of_finished h hmode .refl
      exact ⟨hr.lt_size, (step_sound h hstep).2.completed r hr⟩

/-- A step leaves a complete object as it is, and what it reaches, if it did not make the object. -/
theorem same_of_step (h : s.Sound base) (hstep : step env s = .ok (.inl s'))
    (hr : Completed base s'.heap s'.contexts r) (hlt : r < s.heap.size)
    (hx : Relation.ReflTransGen s'.heap.Points r x) : s'.heap.get x = s.heap.get x := by
  rcases step_sound h hstep with ⟨hsound, hext⟩
  -- Along the arrows, everything was there before: an open object gets no new object to hold.
  have hall : x < s.heap.size ∧ s'.heap.get x = s.heap.get x := by
    induction hx with
    | refl => exact ⟨hlt, hext.same r hlt hr.not_open⟩
    | tail hfront hlast ih =>
        exact settled_of_step h hstep (completed_of_points hsound hr hfront).base_le ih.1 hlast
  exact hall.2

/-- An object whose reading ends is frozen from the state before on, and so is what it reaches. -/
theorem frozen_of_ends {target : Target} (h : s.Sound base)
    (hstep : step env s = .ok (.inl s')) (hends : s.Ends env s' r target)
    (hx : Relation.ReflTransGen s'.heap.Points r x) : s.Frozen env x := by
  rcases completed_of_ends h hstep hends with ⟨hlt, hr⟩
  exact frozen_of_step hstep (frozen_of_completed (step_sound h hstep).1 hr hx)
    (same_of_step h hstep hr hlt hx)

/-- A template is complete when it is about to be copied. -/
theorem completed_of_template? (h : s.Sound base) (hr : s.template? = some r) :
    Completed base s.heap s.contexts r := by
  unfold State.template? at hr
  split at hr
  next name _ _ _ =>
    exact (h.sound.named s.document.context List.mem_cons_self name r
      (Scopes.names_of_template? hr)).1
  · cases hr

/-- At every point of reading, what was there before reading is frozen. So is an object that has
    been read, with all it reaches: from the state in which its reading ends, and in every state
    in which it is not open. In particular the template of a `CLONE` is frozen before its copy is
    made and the body behind the copy is read. -/
theorem objects_frozen {heap : Heap} {input : Input} {start : State}
    (hstart : input.start env heap = .ok start) (hsteps : Steps env start s) :
    (∀ r, r < heap.size → s.Frozen env r) ∧
    (∀ s' r target, step env s = .ok (.inl s') → s.Ends env s' r target →
      ¬ s'.IsOpen r ∧ ∀ x, Relation.ReflTransGen s'.heap.Points r x → s.Frozen env x) ∧
    (∀ r, heap.size ≤ r → r < s.heap.size → ¬ s.IsOpen r →
      ∀ x, Relation.ReflTransGen s.heap.Points r x → s.Frozen env x) ∧
    (∀ r, s.template? = some r →
      ∀ x, Relation.ReflTransGen s.heap.Points r x → s.Frozen env x) := by
  have h := steps_sound (start_sound hstart) hsteps
  refine ⟨fun r hr => frozen_of_lt h hr, ?_, ?_, ?_⟩
  · intro s' r target hstep hends
    exact ⟨(completed_of_ends h hstep hends).2.not_open,
      fun x hx => frozen_of_ends h hstep hends hx⟩
  · exact fun r hbase hlt hopen x hx => frozen_of_completed h ⟨hbase, hlt, hopen⟩ hx
  · exact fun r hr x hx => frozen_of_completed h (completed_of_template? h hr) hx

/-- A copy of a template, in whose body the field `next` is given another object. -/
def Input.overriding : Input :=
  .text ("Node \x7b TEMPLATES: [Node \"t\" \x7b next: Node \x7b\x7d \x7d], " ++
    "next: CLONE \"t\" \"u\" \x7b next: Node \x7b\x7d \x7d \x7d")

/-- In front of the copy, the template and the object in its field `next` are frozen. -/
theorem objects_frozen_overriding :
    ∃ start s, Input.overriding.start (.nodes fun _ => .error "") .empty = .ok start ∧
      Steps (.nodes fun _ => .error "") start s ∧ s.template? = some 1 ∧ s.heap.Points 1 2 ∧
      s.Frozen (.nodes fun _ => .error "") 1 ∧ s.Frozen (.nodes fun _ => .error "") 2 := by
  have hrun : (Input.overriding.stateAfter? (.nodes fun _ => .error "") .empty 25).any
      (fun s => s.template? = some 1 ∧
        (s.heap.children Registry.nodes.fieldsOf 1).contains 2) = true := by
    decide +kernel
  rcases (Option.any_eq_true _ _).1 hrun with ⟨s, hs, hcheck⟩
  rcases of_decide_eq_true hcheck with ⟨htemplate, hlink⟩
  rcases Input.steps_of_stateAfter? hs with ⟨start, hstart, hsteps⟩
  have hpoints : s.heap.Points 1 2 := Heap.points_of_linked (List.contains_iff_mem.1 hlink)
  have hfrozen := (objects_frozen hstart hsteps).2.2.2 1 htemplate
  exact ⟨start, s, hstart, hsteps, htemplate, hpoints, hfrozen 1 .refl,
    hfrozen 2 (.single hpoints)⟩

end

end GraphText.Reader

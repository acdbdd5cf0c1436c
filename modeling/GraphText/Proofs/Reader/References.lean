import GraphText.Proofs.Reader.Completed

/-!
# References lead to complete objects

Every move keeps the invariant of complete objects, hence every step does, and
hence it holds in all states of a run. What is complete stays as it is from then
on, since only open objects are stored into and nothing is opened again.

An object is complete at the latest when it comes to its target. What a name
stands for has been complete before; a new object and a copy are taken off the
open bodies in the step that names them and brings them to their target; and the
object of an include is the root of a document whose bodies are all closed.

## Main definitions

* `State.contexts`: the contexts of all documents that are being read.
* `State.IsOpen`, `State.Settled`: objects that are being read, and those that
  nothing will happen to.

## Theorems

* `Ends.sound`: the object of a reference, a copy or a body is complete in the end.
* `Move.sound`, `step_sound`: the invariant is kept.
* `settled_of_completed`: complete objects stay as they are.
* `references_settled`: names and fields hold settled objects, and there are no
  cycles.
-/

namespace GraphText.Reader

section

variable {reg : Registry} {source : Path} {token : Token} {base : Nat} {heap heap' : Heap}
  {c c' : Context} {cs : List Context} {r : Ref} {target : Target} {start : Position}

theorem Extends.congr {cs' cs'' : List Context} (h : Extends base heap cs heap' cs')
    (hopen : openRefs cs'' = openRefs cs') : Extends base heap cs heap' cs'' :=
  ⟨h.size_le, fun r hr => (h.completed r hr).mono (hopen ▸ List.Subset.refl _), fun r hlt hr =>
    h.same r hlt (hopen ▸ hr), h.old⟩

theorem openRefs_afterField (c : Context) : c.afterField.openRefs = c.bodies.map Body.object := by
  unfold Context.afterField Context.openRefs
  cases c.bodies <;> rfl

theorem held_afterField (c : Context) :
    c.afterField.held = c.bodies.flatMap fun body => body.target.before := by
  unfold Context.afterField Context.held
  cases c.bodies <;> rfl

theorem storeField_sound (h : Sound base heap (c :: cs)) (hcopy : c.mode.copy? = none)
    {field : FieldSpec} {vs : List Value}
    (hvs : ∀ x ∈ vs.flatMap Value.refs, Completed base heap (c :: cs) x)
    (hstore : storeField heap c field start vs = .ok (heap', c')) :
    Sound base heap' (c' :: cs) ∧ Extends base heap (c :: cs) heap' (c' :: cs) := by
  have hopen : c.afterField.openRefs = c.openRefs := by
    rw [openRefs_afterField, Context.openRefs, hcopy]
    rfl
  -- Behind a field the mode remembers nothing, and the same bodies are open.
  have hafter : ∀ {heap'}, Sound base heap' (c :: cs) → Sound base heap' (c.afterField :: cs) := by
    intro heap' h'
    refine h'.swap (hopen ▸ List.Sublist.refl _) (fun name r hr => .inl hr) ?_
    intro r hr
    rw [held_afterField] at hr
    exact .inl (List.mem_append_right _ hr)
  have hopenRefs : openRefs (c.afterField :: cs) = openRefs (c :: cs) := by
    simp [openRefs, hopen]
  -- Without a body nothing is stored; otherwise it is stored in the object of the innermost one.
  unfold storeField at hstore
  split at hstore
  · cases hstore
    exact ⟨hafter h, (Extends.of_completed fun _ hr => hr).congr hopenRefs⟩
  next body rest hbodies =>
    rcases bind_eq_ok hstore with ⟨stored, hstored, hstore⟩
    cases hstore
    have ho : body.object ∈ openRefs (c :: cs) := by
      simp [openRefs, Context.openRefs, hbodies]
    rcases h.store ho hvs (report_ok hstored) with ⟨hsound, hext⟩
    exact ⟨hafter hsound, hext.congr hopenRefs⟩

/-- Bringing a complete object to its target. -/
theorem deliver_sound (h : Sound base heap (c :: cs)) (hcopy : c.mode.copy? = none)
    (hr : Completed base heap (c :: cs) r)
    (hbefore : ∀ x ∈ target.before, Completed base heap (c :: cs) x)
    (hdeliver : deliver reg heap c target r = .ok (heap', c')) :
    Sound base heap' (c' :: cs) ∧ Extends base heap (c :: cs) heap' (c' :: cs) := by
  have hopen : ∀ mode : Mode, mode.copy? = none → (c.enter mode).openRefs = c.openRefs := by
    intro mode hmode
    simp [Context.openRefs, Context.enter, hcopy, hmode]
  -- The mode behind the object remembers the object and those before it.
  have hmode : ∀ mode : Mode, mode.copy? = none → mode.held ⊆ target.before ++ [r] →
      Sound base heap (c.enter mode :: cs) ∧
        Extends base heap (c :: cs) heap (c.enter mode :: cs) := by
    intro mode hnone hheld
    have hopenRefs : openRefs (c.enter mode :: cs) = openRefs (c :: cs) := by
      simp [openRefs, hopen mode hnone]
    refine ⟨h.swap (hopen mode hnone ▸ List.Sublist.refl _) (fun name r hr => .inl hr) ?_,
      (Extends.of_completed fun _ hr => hr).congr hopenRefs⟩
    intro x hx
    rcases List.mem_append.1 hx with hx | hx
    · have hcompleted : Completed base heap (c :: cs) x := by
        rcases List.mem_append.1 (hheld hx) with hx | hx
        · exact hbefore x hx
        · rw [List.mem_singleton] at hx
          exact hx ▸ hr
      exact .inr (hcompleted.mono (hopenRefs ▸ List.Subset.refl _))
    · exact .inl (List.mem_append_right _ hx)
  unfold deliver at hdeliver
  split at hdeliver
  · cases hdeliver
    exact hmode (.finished r) rfl (by simp [Mode.held])
  · cases hdeliver
    exact hmode .templateEnd rfl (by simp [Mode.held, Mode.target?])
  · rcases bind_eq_ok hdeliver with ⟨_, -, hstore⟩
    refine storeField_sound h hcopy ?_ hstore
    intro x hx
    simp only [List.flatMap_cons, List.flatMap_nil, Value.refs, List.append_nil,
      List.mem_singleton] at hx
    exact hx ▸ hr
  next field start first before =>
    rcases bind_eq_ok hdeliver with ⟨_, -, hdeliver⟩
    cases hdeliver
    exact hmode (.elementEnd field start (before ++ [r])) rfl (fun x hx => hx)

/-- Naming an object changes the scopes only. -/
theorem declare_eq_ok (h : declare heap c target r start = .ok c') :
    c'.mode = c.mode ∧ c'.bodies = c.bodies ∧ ∀ name x, c'.scopes.Names name x →
      c.scopes.Names name x ∨ (x = r ∧ (heap.get r).name = some name) := by
  unfold declare at h
  split at h
  next key hkey =>
    cases h
    refine ⟨rfl, rfl, fun name x hx => ?_⟩
    rcases Scopes.names_of_defineTemplate hx with hx | ⟨rfl, rfl⟩
    · exact .inl hx
    · exact .inr ⟨rfl, hkey⟩
  next key hkey _ =>
    cases h
    refine ⟨rfl, rfl, fun name x hx => ?_⟩
    rcases Scopes.names_of_define hx with hx | ⟨rfl, rfl⟩
    · exact .inl hx
    · exact .inr ⟨rfl, hkey⟩
  · simp at h
  · cases h
    exact ⟨rfl, rfl, fun name x hx => .inl hx⟩

/-- Naming a complete object and bringing it to its target. -/
theorem complete_sound (h : Sound base heap (c :: cs)) (hcopy : c.mode.copy? = none)
    (hr : Completed base heap (c :: cs) r)
    (hbefore : ∀ x ∈ target.before, Completed base heap (c :: cs) x)
    (hcomplete : complete reg heap c target r start = .ok (heap', c')) :
    Sound base heap' (c' :: cs) ∧ Extends base heap (c :: cs) heap' (c' :: cs) := by
  rcases bind_eq_ok hcomplete with ⟨named, hnamed, hdeliver⟩
  rcases declare_eq_ok hnamed with ⟨hmode, hbodies, hnames⟩
  -- The object is named only now that it is complete.
  have hopen : named.openRefs = c.openRefs := by
    rw [Context.openRefs, Context.openRefs, hmode, hbodies]
  have hopenRefs : openRefs (named :: cs) = openRefs (c :: cs) := by
    simp [openRefs, hopen]
  have hmono : ∀ x, Completed base heap (c :: cs) x → Completed base heap (named :: cs) x :=
    fun x hx => hx.mono (hopenRefs ▸ List.Subset.refl _)
  have hsound : Sound base heap (named :: cs) := by
    refine h.swap (hopen ▸ List.Sublist.refl _) ?_ ?_
    · intro name x hx
      rcases hnames name x hx with hx | ⟨rfl, hname⟩
      · exact .inl hx
      · exact .inr ⟨hmono x hr, hname⟩
    · intro x hx
      rw [Context.held, hmode, hbodies] at hx
      exact .inl hx
  rcases deliver_sound hsound (hmode ▸ hcopy) (hmono r hr) (fun x hx => hmono x (hbefore x hx))
    hdeliver with ⟨hsound', hext⟩
  exact ⟨hsound', hext.after hmono⟩

/-- Values come to the innermost body. -/
theorem storeField_of_store {body : Body} {outer : List Body} {field : FieldSpec}
    {vs : List Value} (hbodies : c.bodies = body :: outer)
    (hstore : heap.store body.object field vs = .ok heap') :
    storeField heap c field start vs = .ok (heap', c.afterField) := by
  unfold storeField
  simp only [hbodies, hstore, report]
  rfl

/-- What becomes of values does not depend on the mode in which they end. -/
theorem storeField_enter (mode : Mode) (field : FieldSpec) (vs : List Value) :
    storeField heap (c.enter mode) field start vs = storeField heap c field start vs := by
  unfold storeField Context.enter
  cases hb : c.bodies <;> simp [hb, Context.afterField]

theorem deliver_enter (mode : Mode) :
    deliver reg heap (c.enter mode) target r = deliver reg heap c target r := by
  cases target <;> simp only [deliver, storeField_enter] <;> rfl

/-- Nor does what becomes of an object. -/
theorem complete_enter (mode : Mode) :
    complete reg heap (c.enter mode) target r start = complete reg heap c target r start := by
  have hdeclare : declare heap (c.enter mode) target r start =
      (declare heap c target r start).map fun d => d.enter mode := by
    unfold declare
    split <;> rfl
  unfold complete
  rw [hdeclare]
  cases declare heap c target r start with
  | error e => rfl
  | ok d => exact deliver_enter mode

theorem leads_held {mode mode' : Mode} (h : Leads reg c token mode mode') :
    mode.copy? = none ∧ mode'.copy? = none ∧ mode'.held ⊆ mode.held := by
  cases h
  case valueFirst hv => simp [Mode.copy?, Mode.held, refs_of_readScalar hv]
  case valueNext hv => simp [Mode.copy?, Mode.held, refs_of_readScalar hv]
  case listItem hv => simp [Mode.copy?, Mode.held, refs_of_readScalar hv]
  all_goals exact ⟨rfl, rfl, by simp [Mode.held, Mode.target?, Target.before]⟩

theorem refers_names {mode : Mode} (h : Refers reg heap c token mode target r) :
    mode.copy? = none ∧ target.before = mode.held ∧ ∃ name, c.scopes.Names name r := by
  cases h with
  | used _ hr => exact ⟨rfl, rfl, _, Scopes.names_of_resolve? hr⟩
  | quoted _ hr => exact ⟨rfl, rfl, _, Scopes.names_of_resolve? hr⟩
  | bare _ _ hr => exact ⟨rfl, rfl, _, Scopes.names_of_resolve? hr⟩
  | typed hr _ => exact ⟨rfl, rfl, _, Scopes.names_of_resolve? hr⟩

theorem gathers_held {mode : Mode} {field : FieldSpec} {vs : List Value}
    (h : Gathers token mode field start vs) :
    mode.copy? = none ∧ vs.flatMap Value.refs ⊆ mode.held := by
  cases h with
  | last hv => simp [Mode.copy?, Mode.held, refs_of_readScalar hv]
  | only _ _ _ hv => simp [Mode.copy?, refs_of_readScalar hv]
  | none => simp [Mode.copy?]
  | list => simp [Mode.copy?, Mode.held]
  | objects => simp [Mode.copy?, Mode.held, Value.refs]

theorem opens_held {mode : Mode} {spec : ObjectSpec} {name : String}
    (h : Opens mode spec start name target) :
    mode.copy? = none ∧ target.before = mode.held := by
  cases h <;> exact ⟨rfl, rfl⟩

/-- An object that is no longer open is complete, and only then named and brought to its target. -/
theorem Sound.finish (h : Sound base heap (c :: cs)) {d : Context}
    (hopen : c.openRefs = r :: d.openRefs) (hcopy : d.mode.copy? = none)
    (hnamed : ∀ name x, d.scopes.Names name x → c.scopes.Names name x) (hheld : d.held ⊆ c.held)
    (hbefore : target.before ⊆ c.held)
    (hcomplete : complete reg heap d target r start = .ok (heap', c')) :
    Sound base heap' (c' :: cs) ∧ Extends base heap (c :: cs) heap' (c' :: cs) ∧
      Completed base heap' (c' :: cs) r := by
  rcases h.closed d hopen hnamed hheld with ⟨hclosed, hr, hmono⟩
  rcases complete_sound hclosed hcopy hr
    (fun x hx => hmono x (h.held c List.mem_cons_self x (hbefore hx))) hcomplete with ⟨hsound, hext⟩
  exact ⟨hsound, hext.after hmono, hext.completed r hr⟩

/-- The object whose reading ends was there before. -/
theorem Ends.lt_size (h : Sound base heap (c :: cs))
    (hends : Ends reg heap c token r target heap' c') : r < heap.size := by
  cases hends with
  | reference hrefers =>
      rcases refers_names hrefers with ⟨-, -, name, hname⟩
      exact (h.named c List.mem_cons_self name r hname).1.lt_size
  | copy hmode => exact (h.opened r (by simp [openRefs, Context.openRefs, hmode, Mode.copy?])).2
  | body hmode _ hbodies =>
      exact (h.opened _ (by simp [openRefs, Context.openRefs, hbodies])).2

/-- Behind the move that ends its reading, an object is complete. -/
theorem Ends.sound (h : Sound base heap (c :: cs))
    (hends : Ends reg heap c token r target heap' c') :
    Sound base heap' (c' :: cs) ∧ Extends base heap (c :: cs) heap' (c' :: cs) ∧
      Completed base heap' (c' :: cs) r := by
  cases hends with
  -- A name stands for a complete object, by the invariant.
  | reference hrefers hdeliver =>
      rcases refers_names hrefers with ⟨hcopy, hbefore, name, hname⟩
      have hr := (h.named c List.mem_cons_self name r hname).1
      have hheld : ∀ x ∈ target.before, Completed base heap (c :: cs) x := by
        intro x hx
        exact h.held c List.mem_cons_self x (List.mem_append_left _ (hbefore ▸ hx))
      rcases deliver_sound h hcopy hr hheld hdeliver with ⟨hsound, hext⟩
      exact ⟨hsound, hext, hext.completed r hr⟩
  | copy hmode hl hcomplete =>
      -- Which mode the copy ends in does not matter, and in this one the copy is not open.
      rw [← complete_enter .itemEnd] at hcomplete
      refine h.finish (d := c.enter .itemEnd) ?_ rfl (fun _ _ hr => hr) ?_ ?_ hcomplete
      · rw [Context.openRefs, hmode]
        rfl
      · exact fun x hx => List.mem_append_right _ hx
      · intro x hx
        rw [Context.held, hmode]
        exact List.mem_append_left _ hx
  | @body body rest _ _ hmode hl hbodies hcomplete =>
      refine h.finish ?_ ?_ (fun _ _ hr => Scopes.names_of_close hr) ?_ ?_ hcomplete
      · simp [Context.openRefs, hmode, hbodies, Mode.copy?]
      · simp [hmode, Mode.copy?]
      · simp [Context.held, hmode, hbodies, Mode.held, Mode.target?]
      · intro x hx
        rw [Context.held, hbodies, List.flatMap_cons]
        exact List.mem_append_right _ (List.mem_append_left _ hx)

/-- Every move keeps the invariant. -/
theorem Move.sound (h : Sound base heap (c :: cs)) (hmove : Move reg source heap c token heap' c') :
    Sound base heap' (c' :: cs) ∧ Extends base heap (c :: cs) heap' (c' :: cs) := by
  cases hmove with
  -- A mode leads to one that remembers no more.
  | lead hlead =>
      rcases leads_held hlead with ⟨hcopy, hcopy', hmode⟩
      refine h.pass ?_ (fun _ _ hr => hr) ?_
      · simp [Context.openRefs, Context.enter, hcopy, hcopy']
      · intro r hr
        rcases List.mem_append.1 hr with hr | hr
        · exact List.mem_append_left _ (hmode hr)
        · exact List.mem_append_right _ hr
  | constant hmode hl =>
      refine h.pass ?_ (fun _ _ hr => Scopes.names_of_defineConstant hr) ?_
      · simp [Context.openRefs, hmode, Mode.copy?]
      · intro r hr
        exact List.mem_append_right _ hr
  | refer hrefers hdeliver => exact ((Ends.reference hrefers hdeliver).sound h).imp_right And.left
  -- The new object is open until its brace, and is in no table until then.
  | openNew hopens _ =>
      rcases opens_held hopens with ⟨hcopy, hbefore⟩
      refine h.alloc rfl ?_ (fun _ _ hr => Scopes.names_of_open hr) ?_
      · rw [Context.openRefs, Context.openRefs, hcopy]
        rfl
      · simp [Context.held, Context.openBody, hbefore, Mode.held, Mode.target?]
  -- A template is complete, so there is no cycle to be copied.
  | copy hmode hl hr hcopy =>
      have hsource := (h.named c List.mem_cons_self _ _ (Scopes.names_of_template? hr)).1
      refine h.copy hsource hcopy (fun i => rfl) ?_ (fun _ _ hx => hx) ?_
      · simp [Context.openRefs, Context.enter, hmode, Mode.copy?]
      · simp [Context.held, Context.enter, hmode, Mode.held, Mode.target?]
  | openCopy hmode hl hspec =>
      refine h.pass ?_ (fun _ _ hr => Scopes.names_of_open hr) ?_
      · rw [Context.openRefs, Context.openRefs, hmode]
        rfl
      · simp [Context.held, Context.openBody, hmode, Mode.held, Mode.target?]
  | endCopy hmode hl hcomplete => exact ((Ends.copy hmode hl hcomplete).sound h).imp_right And.left
  | close hmode hl hbodies hcomplete =>
      exact ((Ends.body hmode hl hbodies hcomplete).sound h).imp_right And.left
  | store hgathers hstore =>
      rcases gathers_held hgathers with ⟨hcopy, hvs⟩
      refine storeField_sound h hcopy (fun x hx => ?_) hstore
      exact h.held c List.mem_cons_self x (List.mem_append_left _ (hvs hx))

end

theorem held_start : ({} : Context).held = [] := rfl

/-- The object of a document waits in its last mode. -/
theorem mem_held_of_finished {c : Context} {root : Ref} (hmode : c.mode = .finished root) :
    root ∈ c.held := by
  rw [Context.held, hmode]
  exact List.mem_cons_self

/-- A document begins with nothing open and nothing known. -/
theorem Sound.begin {base : Nat} {heap : Heap} {cs : List Context} (h : Sound base heap cs) :
    Sound base heap ({} :: cs) ∧ Extends base heap cs heap ({} :: cs) := by
  have hopen : openRefs (({} : Context) :: cs) = openRefs cs := by
    simp [openRefs, Context.openRefs, Mode.copy?]
  have hmono : ∀ r, Completed base heap cs r → Completed base heap (({} : Context) :: cs) r :=
    fun r hr => hr.mono (hopen ▸ List.Subset.refl _)
  refine ⟨h.reframe (hopen ▸ List.Sublist.refl _) ?_ ?_, Extends.of_completed hmono⟩
  · intro c hc name r hr
    rcases List.mem_cons.1 hc with rfl | hc
    · exact absurd hr (Scopes.not_names_empty name r)
    · have hold := h.named c hc name r hr
      exact ⟨hmono r hold.1, hold.2⟩
  · intro c hc r hr
    rcases List.mem_cons.1 hc with rfl | hc
    · rw [held_start] at hr
      cases hr
    · exact hmono r (h.held c hc r hr)

/-- A document ends with what it knew and what it had open. -/
theorem Sound.end {base : Nat} {heap : Heap} {c : Context} {cs : List Context}
    (h : Sound base heap (c :: cs)) :
    Sound base heap cs ∧ ∀ r, Completed base heap (c :: cs) r → Completed base heap cs r := by
  have hmono : ∀ r, Completed base heap (c :: cs) r → Completed base heap cs r :=
    fun r hr => hr.mono (List.subset_append_right _ _)
  refine ⟨h.reframe (List.sublist_append_right _ _) ?_ ?_, hmono⟩
  · intro d hd name r hr
    have hold := h.named d (List.mem_cons_of_mem _ hd) name r hr
    exact ⟨hmono r hold.1, hold.2⟩
  · intro d hd r hr
    exact hmono r (h.held d (List.mem_cons_of_mem _ hd) r hr)

/-- The contexts of all documents that are being read, the innermost first. -/
def State.contexts (s : State) : List Context :=
  s.document.context :: s.waiting.map fun w => w.document.context

theorem contexts_of_waiting {s : State} {w : Waiting} {rest : List Waiting}
    (hwaiting : s.waiting = w :: rest) :
    s.contexts = s.document.context :: w.document.context ::
      rest.map fun w => w.document.context := by
  rw [State.contexts, hwaiting]
  rfl

theorem contexts_of_start {env : Environment} {s : State} {heap : Heap} {input : Input}
    (h : input.start env heap = .ok s) : s.contexts = [{}] := by
  rcases Input.start_eq_ok h with ⟨-, -, hwaiting, hcontext, -⟩
  rw [State.contexts, hwaiting, hcontext]
  rfl

/-- The invariant of a state. A document waits behind the path of its include. -/
structure State.Sound (base : Nat) (s : State) : Prop where
  sound : Reader.Sound base s.heap s.contexts
  waiting : ∀ w ∈ s.waiting, ∃ path,
    w.document.context.mode = .includingPath w.start path w.target

section

variable {env : Environment} {base : Nat} {s s' : State} {r : Ref}

/-- Every step keeps the invariant. -/
theorem step_sound (h : s.Sound base) (hstep : step env s = .ok (.inl s')) :
    s'.Sound base ∧ Extends base s.heap s.contexts s'.heap s'.contexts := by
  cases stepped_of_step hstep with
  | expand hread hl hexpand =>
      rcases expand_eq_ok hexpand with ⟨tokens, rfl⟩
      exact ⟨⟨h.sound, h.waiting⟩, Extends.of_completed fun _ hr => hr⟩
  | move hread htokens hmove =>
      rcases hmove.sound h.sound with ⟨hsound, hext⟩
      exact ⟨⟨hsound, h.waiting⟩, hext⟩
  -- The document waits as it is, and the one that is included starts with nothing.
  | enter hread hmode henter =>
      rcases enter_eq_ok_iff.1 henter with ⟨file, included, hopen, rfl⟩
      rcases openFile_eq_ok hopen with ⟨-, -, -, text, -, rfl⟩
      rcases h.sound.begin with ⟨hsound, hext⟩
      refine ⟨⟨hsound, fun w hw => ?_⟩, hext⟩
      rcases List.mem_cons.1 hw with rfl | hw
      · exact ⟨_, hmode⟩
      · exact h.waiting w hw
  | @leave w rest root _ hmode hwaiting hresume =>
      rcases resume_eq_ok hresume with ⟨heap', context, hcomplete, rfl⟩
      have hall := h.sound
      rw [contexts_of_waiting hwaiting] at hall ⊢
      rcases h.waiting w (hwaiting ▸ List.mem_cons_self) with ⟨path, hincluding⟩
      rcases hall.end with ⟨houter, hmono⟩
      -- The root waits in the mode of the included document, and is dropped with it.
      have hroot := mem_held_of_finished hmode
      have hbefore : ∀ x ∈ w.target.before, x ∈ w.document.context.held := by
        intro x hx
        rw [Context.held, hincluding]
        exact List.mem_append_left _ hx
      rcases complete_sound houter (by rw [hincluding]; rfl)
        (hmono root (hall.held _ List.mem_cons_self root hroot))
        (fun x hx => houter.held _ List.mem_cons_self x (hbefore x hx)) hcomplete with
        ⟨hsound, hext⟩
      refine ⟨⟨hsound, fun v hv => h.waiting v ?_⟩, hext.after hmono⟩
      rw [hwaiting]
      exact List.mem_cons_of_mem _ hv

theorem start_sound {heap : Heap} {input : Input} (h : input.start env heap = .ok s) :
    s.Sound heap.size := by
  rcases Input.start_eq_ok h with ⟨hheap, -, hwaiting, -⟩
  have hnothing : Reader.Sound heap.size heap [] := by
    refine ⟨Nat.le_refl _, List.nodup_nil, by simp [openRefs], by simp, by simp, ?_, ?_⟩
    · exact fun r x hr hx => absurd hx (Heap.not_points_of_size_le hr x)
    · intro r hcycle
      cases hcycle with
      | single hx => exact Heap.not_points_of_size_le hx.1 _ hx.2
      | tail _ hx => exact Heap.not_points_of_size_le hx.1 _ hx.2
  refine ⟨?_, by simp [hwaiting]⟩
  rw [contexts_of_start h, hheap]
  exact hnothing.begin.1

theorem steps_sound (h : s.Sound base) (hsteps : Steps env s s') : s'.Sound base :=
  hsteps.preserves (fun _ _ hstep hs => (step_sound hs hstep).1) h

theorem size_le_of_steps (h : s.Sound base) (hsteps : Steps env s s') :
    s.heap.size ≤ s'.heap.size := by
  induction hsteps with
  | refl => exact Nat.le_refl _
  | tail hsteps hlast ih =>
      exact Nat.le_trans ih (step_sound (steps_sound h hsteps) hlast).2.size_le

/-- Complete objects stay complete and as they are. -/
theorem same_of_completed (h : s.Sound base) (hr : Completed base s.heap s.contexts r)
    (hsteps : Steps env s s') :
    Completed base s'.heap s'.contexts r ∧ s'.heap.get r = s.heap.get r := by
  induction hsteps with
  | refl => exact ⟨hr, rfl⟩
  | tail hsteps hlast ih =>
      rcases step_sound (steps_sound h hsteps) hlast with ⟨-, hext⟩
      have hafter := hext.completed r ih.1
      exact ⟨hafter, (hext.same r ih.1.lt_size hafter.not_open).trans ih.2⟩

end

/-- Whether a body of an object is being read, or may follow behind a copy. -/
def State.IsOpen (s : State) (r : Ref) : Prop :=
  r ∈ openRefs s.contexts

/-- An object that has been read: from this state on it is never open and stays as it is. -/
structure State.Settled (env : Environment) (s : State) (r : Ref) : Prop where
  lt_size : r < s.heap.size
  not_open : ∀ s', Steps env s s' → ¬ s'.IsOpen r
  same : ∀ s', Steps env s s' → s'.heap.get r = s.heap.get r

section

variable {env : Environment} {base : Nat} {s s' : State} {r : Ref}

theorem settled_of_completed (h : s.Sound base) (hr : Completed base s.heap s.contexts r) :
    s.Settled env r :=
  ⟨hr.lt_size, fun _ hsteps => (same_of_completed h hr hsteps).1.not_open,
    fun _ hsteps => (same_of_completed h hr hsteps).2⟩

/-- What an object refers to behind a step was there before it, as it is. -/
theorem settled_of_step (h : s.Sound base) (hstep : step env s = .ok (.inl s')) {x : Ref}
    (hbase : base ≤ r) (hr : r < s.heap.size) (hx : s'.heap.Points r x) :
    x < s.heap.size ∧ s'.heap.get x = s.heap.get x := by
  rcases step_sound h hstep with ⟨hsound, hext⟩
  have hlt : x < s.heap.size := by
    -- An arrow of an old object is old as well or was just drawn to an old one.
    rcases hext.old r x hr hx with hold | hlt
    · exact (h.sound.stored r x hbase hold).lt_size
    · exact hlt
  exact ⟨hlt, hext.same x hlt (hsound.sound.stored r x hbase hx).not_open⟩

/-- What a complete object reaches is complete. -/
theorem completed_of_points (h : s.Sound base) (hr : Completed base s.heap s.contexts r) {x : Ref}
    (hx : Relation.ReflTransGen s.heap.Points r x) : Completed base s.heap s.contexts x := by
  induction hx with
  | refl => exact hr
  | tail _ hpoints ih => exact h.sound.stored _ _ ih.base_le hpoints

/-- What the object of a document reaches is complete. -/
theorem completed_of_finished {root : Ref} (h : s.Sound base)
    (hmode : s.document.context.mode = .finished root)
    (hr : Relation.ReflTransGen s.heap.Points root r) : Completed base s.heap s.contexts r :=
  completed_of_points h
    (h.sound.held s.document.context List.mem_cons_self root (mem_held_of_finished hmode)) hr

/-- What the object of a document reaches is on no cycle. -/
theorem acyclic_of_finished {root : Ref} (h : s.Sound base)
    (hmode : s.document.context.mode = .finished root)
    (hr : Relation.ReflTransGen s.heap.Points root r) :
    ¬ Relation.TransGen s.heap.Points r r := by
  intro hcycle
  -- The cycle stays among the objects of this reading, which is all the invariant speaks of.
  have hpath : ∀ x, Relation.TransGen s.heap.Points r x →
      Relation.TransGen (fun r x => base ≤ r ∧ s.heap.Points r x) r x := by
    intro x hx
    induction hx with
    | single hfirst => exact .single ⟨(completed_of_finished h hmode hr).base_le, hfirst⟩
    | tail hfront hlast ih =>
        have hreach := hr.trans hfront.to_reflTransGen
        exact ih.tail ⟨(completed_of_finished h hmode hreach).base_le, hlast⟩
  exact h.sound.acyclic r (hpath r hcycle)

/-- Nothing that was read lies on a cycle. -/
theorem acyclic_of_read {heap : Heap} {input : Input} {out : Output}
    (hread : input.read env heap = .ok out)
    (hr : Relation.ReflTransGen out.heap.Points out.root r) :
    ¬ Relation.TransGen out.heap.Points r r := by
  rcases Input.read_eq_ok_iff.1 hread with ⟨first, hfirst, hrun⟩
  rcases steps_of_run hrun with ⟨last, hlast, hend⟩
  rcases step_eq_inr hend with ⟨-, hmode, hheap, -⟩
  rw [hheap] at hr ⊢
  exact acyclic_of_finished (steps_sound (start_sound hfirst) hlast) hmode hr

/-- At every point of reading, names stand for settled objects that carry them, lists and fields
    hold settled objects, and nothing is stored that was not there before as it is. So nothing that
    has been read lies on a cycle. -/
theorem references_settled {heap : Heap} {input : Input} {start : State}
    (hstart : input.start env heap = .ok start) (hsteps : Steps env start s) :
    (∀ c ∈ s.contexts, ∀ name r, c.scopes.Names name r →
      (s.heap.get r).name = some name ∧ s.Settled env r) ∧
    (∀ c ∈ s.contexts, ∀ r ∈ c.held, s.Settled env r) ∧
    (∀ r x, heap.size ≤ r → s.heap.Points r x → s.Settled env x) ∧
    (∀ s', step env s = .ok (.inl s') → ∀ r x, heap.size ≤ r → r < s.heap.size →
      s'.heap.Points r x → x < s.heap.size ∧ s'.heap.get x = s.heap.get x) ∧
    (∀ out, input.read env heap = .ok out →
      ∀ r, Relation.ReflTransGen out.heap.Points out.root r →
        ¬ Relation.TransGen out.heap.Points r r) := by
  have h := steps_sound (start_sound hstart) hsteps
  refine ⟨?_, ?_, ?_, ?_, ?_⟩
  · intro c hc name r hr
    have hnamed := h.sound.named c hc name r hr
    exact ⟨hnamed.2, settled_of_completed h hnamed.1⟩
  · exact fun c hc r hr => settled_of_completed h (h.sound.held c hc r hr)
  · exact fun r x hr hx => settled_of_completed h (h.sound.stored r x hr hx)
  · exact fun s' hstep r x hbase hr hx => settled_of_step h hstep hbase hr hx
  · exact fun out hread r hr => acyclic_of_read hread hr

/-- Behind `all`, the object in the field `next` has been read and named. -/
theorem references_settled_nodes :
    ∃ start s,
      (Input.text "Node \x7b next: Node \"c\" \x7b\x7d, all: [USE \"c\"] \x7d").start
        (.nodes fun _ => .error "") .empty = .ok start ∧
      Steps (.nodes fun _ => .error "") start s ∧ s.heap.Points 0 1 ∧
      s.Settled (.nodes fun _ => .error "") 1 := by
  have hrun : ((Input.text "Node \x7b next: Node \"c\" \x7b\x7d, all: [USE \"c\"] \x7d").stateAfter?
      (.nodes fun _ => .error "") .empty 14).any
      (fun s => (s.heap.children Registry.nodes.fieldsOf 0).contains 1) = true := by
    decide +kernel
  rcases (Option.any_eq_true _ _).1 hrun with ⟨s, hs, hlink⟩
  rcases Input.steps_of_stateAfter? hs with ⟨start, hstart, hsteps⟩
  have hpoints : s.heap.Points 0 1 := Heap.points_of_linked (List.contains_iff_mem.1 hlink)
  exact ⟨start, s, hstart, hsteps, hpoints,
    (references_settled hstart hsteps).2.2.1 0 1 (Nat.zero_le _) hpoints⟩

end

end GraphText.Reader

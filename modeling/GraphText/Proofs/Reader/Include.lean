import GraphText.Proofs.Reader.Beside
import GraphText.Proofs.Reader.References

/-!
# Includes are reading alone

While an included file is read, the documents that wait for it are not looked at.
So reading it there is reading it alone, behind what there is: its objects stand
behind the heap as it was when the file was opened, its edges behind the edges
found before, and its own includes on top of the documents that wait.

Only one thing looks further. A file is not opened if it is open already, or if
too many are, and inside an include more files are open than alone. So what can
be opened there can be opened alone, and this is why a successful include is a
successful reading alone, but not the other way round.

## Main definitions

* `State.behind`: a reader at work inside another one.
* `Inside`, `Included`: the run of an include from its first to its last state.

## Theorems

* `step_behind`: a step of an include is a step alone.
* `alone_of_run`: an include that comes to an end ends alone.
* `inside_or_later`: what comes up while an include is read, and what after it.
* `include_hermetic`: what an include gives is what the file gives alone, made of
  new objects.
-/

namespace GraphText

/-- The document with every object under another number. -/
def Reader.Document.mapRefs (f : Ref → Ref) (doc : Reader.Document) : Reader.Document :=
  { doc with context := doc.context.mapRefs f }

namespace Reader

/-- The waiting document with every object under another number. -/
def Waiting.mapRefs (f : Ref → Ref) (w : Waiting) : Waiting :=
  { w with document := w.document.mapRefs f, target := w.target.mapRefs f }

/-- A reader at work inside another one, which waits. -/
def State.behind (outer s : State) : State :=
  { heap := outer.heap.beside s.heap
    dependencies := outer.dependencies ++ s.dependencies
    document := s.document.mapRefs outer.heap.shift
    waiting := s.waiting.map (Waiting.mapRefs outer.heap.shift) ++ outer.waiting
    rootFile := outer.rootFile }

section

variable {env : Environment} {outer s s' : State}

theorem expand_mapRefs {f : Ref → Ref} (doc : Document) (origin : Position)
    (behind : TokenStream) :
    (doc.mapRefs f).expand env origin behind =
      (doc.expand env origin behind).map (Document.mapRefs f) := by
  have hconstant : ∀ name, (doc.mapRefs f).context.scopes.constant? name =
      doc.context.scopes.constant? name := Scopes.constant?_mapRefs doc.context.scopes
  have hread : (doc.mapRefs f).read behind = doc.read behind := rfl
  unfold Document.expand
  rw [hread]
  -- Constants are texts and refer to no objects.
  cases doc.read behind with
  | error e => rfl
  | ok next =>
      rcases next with ⟨⟨lexeme, p⟩, after⟩
      cases lexeme with
      | name name =>
          simp only [bind, Except.bind]
          rw [hconstant]
          cases doc.context.scopes.constant? name with
          | none => rfl
          | some value =>
              simp only
              split <;> rfl
      | quoted text | number text | punct character | unknown character | eof => rfl

/-- What can be opened while more files are open can be opened. -/
theorem openFile_of_append {isOpen more : List Path} {path : Path} {r : Path × Document}
    (h : openFile env (isOpen ++ more) path = .ok r) : openFile env isOpen path = .ok r := by
  rcases r with ⟨file, doc⟩
  rcases openFile_eq_ok h with ⟨rfl, hcycle, hroom, text, hread, rfl⟩
  rw [Path.isIn, List.any_append, Bool.or_eq_false_iff] at hcycle
  rw [List.length_append] at hroom
  unfold openFile
  dsimp only
  rw [if_neg (by rw [Path.isIn, hcycle.1]; exact Bool.false_ne_true), if_neg (by omega), hread]

/-- A file that an include can enter can be entered alone. -/
theorem enter_behind {w : Waiting} {rest : List Waiting} (hwaiting : outer.waiting = w :: rest)
    (hfile : s.rootFile = some w.file) {after : TokenStream} {path : String} {start : Position}
    {target : Target} {entered : State}
    (h : (outer.behind s).enter env after path start (target.mapRefs outer.heap.shift) =
      .ok entered) :
    ∃ s', s.enter env after path start target = .ok s' ∧ entered = outer.behind s' ∧
      s'.rootFile = s.rootFile := by
  rcases enter_eq_ok_iff.1 h with ⟨file, included, hopen, rfl⟩
  -- Alone fewer files are open, and its own file is, whichever way it was entered.
  have hfiles : (outer.behind s).openFiles =
      s.openFiles ++ (rest.map Waiting.file ++ outer.rootFile.toList) := by
    simp [State.openFiles, State.behind, hwaiting, hfile, Waiting.mapRefs, Function.comp_def]
  rw [hfiles] at hopen
  have hopened : openFile env s.openFiles (s.document.directory.join ⟨path⟩) =
      .ok (file, included) := openFile_of_append hopen
  refine ⟨s.entered after path start target file included,
    enter_eq_ok_iff.2 ⟨file, included, hopened, rfl⟩, ?_, rfl⟩
  rcases openFile_eq_ok hopened with ⟨-, -, -, text, -, rfl⟩
  simp [State.behind, State.entered, Waiting.mapRefs, Document.mapRefs]
  rfl

/-- A document inside an include is resumed as it is alone. -/
theorem resume_behind {v : Waiting} {vs : List Waiting} {root : Ref} {left : State}
    (h : (outer.behind s).resume env (v.mapRefs outer.heap.shift)
      (vs.map (Waiting.mapRefs outer.heap.shift) ++ outer.waiting) (outer.heap.shift root) =
        .ok left) :
    ∃ s', s.resume env v vs root = .ok s' ∧ left = outer.behind s' ∧
      s'.rootFile = s.rootFile := by
  rcases resume_eq_ok h with ⟨heap, context, hcomplete, rfl⟩
  have hcomplete' : complete env.registry (outer.heap.beside s.heap)
      (v.document.context.mapRefs outer.heap.shift) (v.target.mapRefs outer.heap.shift)
      (outer.heap.shift root) v.start = .ok (heap, context) := hcomplete
  rw [complete_beside] at hcomplete'
  rcases map_eq_ok hcomplete' with ⟨⟨heap, context⟩, halone, heq⟩
  cases heq
  refine ⟨{ s with heap, document := { v.document with context }, waiting := vs }, ?_, rfl, rfl⟩
  simp only [State.resume, halone]
  rfl

/-- A step of an include is a step alone, or the end of the include. -/
theorem step_behind {w : Waiting} {rest : List Waiting} (hwaiting : outer.waiting = w :: rest)
    (hfile : s.rootFile = some w.file) {result : State ⊕ Output}
    (h : step env (outer.behind s) = .ok result) :
    (∃ s', result = .inl (outer.behind s') ∧ step env s = .ok (.inl s') ∧
      s'.rootFile = s.rootFile) ∨
    (∃ out left, step env s = .ok (.inr out) ∧ result = .inl left ∧ left.waiting = rest) := by
  rcases step_eq_ok h with ⟨token, after, hread, ⟨hl, document, hexpand, rfl⟩ | ⟨hl, t, hturn⟩⟩
  -- Constants are the same under other numbers, so a `$` is expanded in the same way.
  · have hread' : s.document.read s.document.tokens = .ok (token, after) := hread
    have hexpand' : (s.document.mapRefs outer.heap.shift).expand env token.position after =
        .ok document := hexpand
    rw [expand_mapRefs] at hexpand'
    rcases map_eq_ok hexpand' with ⟨doc, hdoc, rfl⟩
    refine .inl ⟨{ s with document := doc }, rfl, ?_, rfl⟩
    simp only [step, hread', hdoc, bind, Except.bind, if_pos hl]
  · have hread' : s.document.read s.document.tokens = .ok (token, after) := hread
    -- The turn is one of the document alone, with its heap put behind the outer one.
    have hturn' : turn env.registry s.document.source (outer.heap.beside s.heap)
        (s.document.context.mapRefs outer.heap.shift) token = .ok t := hturn
    rw [turn_beside] at hturn'
    rcases map_eq_ok hturn' with ⟨t, halone, rfl⟩
    rw [step_of_turn hread hl hturn] at h
    have hstep := step_of_turn hread' hl halone
    cases t with
    | take heap context =>
        cases h
        exact .inl ⟨_, rfl, hstep, rfl⟩
    | keep heap context =>
        cases h
        exact .inl ⟨_, rfl, hstep, rfl⟩
    | enter path start target =>
        rcases map_eq_ok h with ⟨entered, henter, rfl⟩
        rcases enter_behind hwaiting hfile henter with ⟨s', hentered, rfl, hroot⟩
        exact .inl ⟨s', rfl, hstep.trans (congrArg (Except.map Sum.inl) hentered), hroot⟩
    | leave root =>
        -- With nothing left of its own that waits, it is the include that ends.
        cases hrest : s.waiting with
        | nil =>
            have hbehind : (outer.behind s).waiting = w :: rest := by
              simp [State.behind, hrest, hwaiting]
            simp only [Turn.beside, Turn.outcome, hbehind] at h
            rcases map_eq_ok h with ⟨left, hresume, rfl⟩
            rcases resume_eq_ok hresume with ⟨heap, context, -, rfl⟩
            refine .inr ⟨⟨s.heap, root, s.dependencies⟩, _, ?_, rfl, rfl⟩
            simp only [hstep, Turn.outcome, hrest]
        | cons v vs =>
            have hbehind : (outer.behind s).waiting = v.mapRefs outer.heap.shift ::
                (vs.map (Waiting.mapRefs outer.heap.shift) ++ outer.waiting) := by
              simp [State.behind, hrest]
            simp only [Turn.beside, Turn.outcome, hbehind] at h
            rcases map_eq_ok h with ⟨left, hresume, rfl⟩
            rcases resume_behind hresume with ⟨s', hresumed, rfl, hroot⟩
            refine .inl ⟨s', rfl, ?_, hroot⟩
            simp only [hstep, Turn.outcome, hrest, hresumed]
            rfl

/-- A run through states for which at least these documents wait. -/
def Inside (env : Environment) (waiting : List Waiting) : State → State → Prop :=
  Relation.ReflTransGen fun a b => step env a = .ok (.inl b) ∧ waiting <:+ b.waiting

theorem Inside.steps {waiting : List Waiting} (h : Inside env waiting s s') : Steps env s s' :=
  Relation.ReflTransGen.mono (fun _ _ hstep => hstep.1) _ _ h

/-- A state of a run through an include belongs to the include, or comes after its end. -/
theorem inside_or_later {waiting : List Waiting} {last t : State}
    (h : Inside env waiting s last) (hwaiting : waiting <:+ s.waiting) (ht : Steps env s t) :
    waiting <:+ t.waiting ∨ Steps env last t := by
  induction h using Relation.ReflTransGen.head_induction_on with
  | refl => exact .inr ht
  | head hstep _ ih =>
      -- A step has one result, so both runs take the same one.
      cases ht using Relation.ReflTransGen.head_induction_on with
      | refl => exact .inl hwaiting
      | head hfirst hrest =>
          rw [hstep.1] at hfirst
          cases hfirst
          exact ih hstep.2 hrest

/-- A step opens the file of this path for an include, and in the last state the include has been
    read, with this object, and is about to be left. -/
structure Included (env : Environment) (s s' : State) (path : Path) (last : State) (root : Ref) :
    Prop where
  entered : step env s = .ok (.inl s')
  dependency : s'.dependencies = s.dependencies ++ [⟨s.document.source, path⟩]
  inside : Inside env s'.waiting s' last
  waiting : last.waiting = s'.waiting
  finished : last.document.context.mode = .finished root
  left : ∃ left, step env last = .ok (.inl left) ∧ left.waiting = s.waiting

/-- Every state of an include is one of reading alone, behind the state that the include began
    with. -/
theorem behind_of_inside {w : Waiting} {rest : List Waiting} {last : State}
    (hwaiting : outer.waiting = w :: rest) (hfile : s.rootFile = some w.file)
    (h : Inside env outer.waiting (outer.behind s) last) :
    ∃ a, last = outer.behind a ∧ Steps env s a ∧ a.rootFile = s.rootFile := by
  induction h with
  | refl => exact ⟨s, rfl, .refl, rfl⟩
  | tail _ hlast ih =>
      rcases ih with ⟨a, rfl, hsteps, hroot⟩
      rcases step_behind hwaiting (hroot.trans hfile) hlast.1 with
        ⟨a', heq, hstep, hsame⟩ | ⟨out, left, -, heq, hleft⟩
      · cases heq
        exact ⟨a', rfl, hsteps.tail hstep, hsame.trans hroot⟩
      · cases heq
        have hlen := hlast.2.length_le
        rw [hwaiting, hleft, List.length_cons] at hlen
        omega

/-- An include that comes to an end ends alone. -/
theorem alone_of_run {w : Waiting} {rest : List Waiting} {out : Output}
    (hwaiting : outer.waiting = w :: rest) (hfile : s.rootFile = some w.file)
    (h : run env (outer.behind s) = .ok out) :
    ∃ a alone left, Inside env outer.waiting (outer.behind s) (outer.behind a) ∧
      step env a = .ok (.inr alone) ∧ step env (outer.behind a) = .ok (.inl left) ∧
      left.waiting = rest := by
  -- Along the run. It ends in an output, and inside of the include no step does, so the include
  -- comes to its end before.
  generalize he : outer.behind s = e at h
  fun_induction run env e generalizing s with
  | case1 e err hstep => simp at h
  | case2 e output hstep =>
      subst he
      rcases step_behind hwaiting hfile hstep with ⟨a, heq, -, -⟩ | ⟨_, _, -, heq, -⟩
      · cases heq
      · cases heq
  | case3 e e' hstep ih =>
      subst he
      rcases step_behind hwaiting hfile hstep with
        ⟨a, heq, -, hroot⟩ | ⟨alone, left, halone, heq, hleft⟩
      · cases heq
        rcases ih (hroot.trans hfile) rfl h with ⟨b, alone, left, hinside, hb⟩
        refine ⟨b, alone, left, hinside.head ⟨hstep, ?_⟩, hb⟩
        exact List.suffix_append _ _
      · cases heq
        exact ⟨s, alone, e', .refl, halone, hstep, hleft⟩

end

/-- The first state of reading a file alone. -/
def State.ofFile (file : Path) (document : Document) : State :=
  { heap := .empty, dependencies := [], document, rootFile := some file }

section

variable {env : Environment} {s s' last : State} {path : Path} {root : Ref}

/-- Entering an include is beginning to read its file alone. -/
theorem entered_eq_ok (hstep : step env s = .ok (.inl s'))
    (hdependency : s'.dependencies = s.dependencies ++ [⟨s.document.source, path⟩]) :
    ∃ w doc, s'.waiting = w :: s.waiting ∧ w.file = env.files.key path ∧
      openFile env s.openFiles path = .ok (w.file, doc) ∧ s'.heap = s.heap ∧
      s'.behind (.ofFile w.file doc) = s' := by
  have hnone : s'.dependencies ≠ s.dependencies := by
    rw [hdependency]
    simp
  -- Only entering an include adds an edge.
  cases stepped_of_step hstep with
  | expand _ _ _ => exact absurd rfl hnone
  | move _ _ _ => exact absurd rfl hnone
  | leave _ _ hresume =>
      rcases resume_eq_ok hresume with ⟨_, _, -, rfl⟩
      exact absurd rfl hnone
  | @enter _ _ included _ _ _ _ _ henter =>
      rcases enter_eq_ok_iff.1 henter with ⟨file, doc, hopen, rfl⟩
      rcases openFile_eq_ok hopen with ⟨hkey, -, -, text, -, rfl⟩
      have hpath : path = s.document.directory.join ⟨included⟩ := by
        simpa [State.entered] using hdependency.symm
      subst hpath
      refine ⟨_, _, rfl, hkey, hopen, rfl, ?_⟩
      simp [State.behind, State.ofFile, State.entered, Heap.beside_empty, Document.mapRefs]
      rfl

/-- An include that has been read is reading alone, behind the state that it began with. -/
theorem alone_of_included (h : Included env s s' path last root) :
    ∃ first a alone, s.heap = s'.heap ∧ first.heap = .empty ∧
      (Input.file path).start env .empty = .ok first ∧ Steps env first a ∧
      step env a = .ok (.inr alone) ∧ last = s'.behind a ∧ root = s'.heap.shift alone.root := by
  rcases entered_eq_ok h.entered h.dependency with ⟨w, doc, hwaiting, hkey, hopen, hheap, hfirst⟩
  have hstart : (Input.file path).start env .empty = .ok (.ofFile w.file doc) := by
    have hopened : openFile env [] path = .ok (w.file, doc) := openFile_of_append hopen
    simp only [Input.start, hopened]
    rfl
  have hinside := h.inside
  rw [← hfirst] at hinside
  have hfirstWaiting : (s'.behind (.ofFile w.file doc)).waiting = s'.waiting := by
    rw [hfirst]
  rw [hfirstWaiting] at hinside
  rcases behind_of_inside hwaiting rfl hinside with ⟨a, hlast, hsteps, hroot⟩
  -- The step that leaves the include is its last step alone.
  rcases h.left with ⟨left, hstep, hleft⟩
  rw [hlast] at hstep
  rcases step_behind hwaiting hroot hstep with ⟨a', heq, -, -⟩ | ⟨alone, _, halone, -, -⟩
  · cases heq
    have hlen := congrArg List.length hleft
    simp [State.behind, hwaiting] at hlen
    omega
  · refine ⟨_, a, alone, hheap.symm, rfl, hstart, hsteps, halone, hlast, ?_⟩
    rcases step_eq_inr halone with ⟨-, hmode, -, -⟩
    have hfinished := h.finished
    rw [hlast] at hfinished
    simp only [State.behind, Document.mapRefs, Context.mapRefs, hmode, Mode.mapRefs,
      Mode.finished.injEq] at hfinished
    exact hfinished.symm

/-- Everything below the object of an include was made while the include was read. -/
theorem fresh_of_included (h : Included env s s' path last root) {x : Ref}
    (hx : Relation.ReflTransGen last.heap.Points root x) :
    s.heap.size ≤ x ∧ x < last.heap.size := by
  rcases alone_of_included h with ⟨first, a, alone, hheap, -, hfirst, hsteps, hend, rfl, rfl⟩
  rcases step_eq_inr hend with ⟨-, hmode, -, -⟩
  rcases (Heap.isoBelow_beside s'.heap a.heap alone.root).onto x hx with ⟨r, hr, rfl⟩
  have hsound := steps_sound (start_sound hfirst) hsteps
  refine ⟨?_, (Heap.shift_lt_size r).2 (completed_of_finished hsound hmode hr).lt_size⟩
  rw [hheap]
  exact Nat.le_add_right _ _

/-- Of two includes of one file the later one begins behind the end of the earlier one. -/
theorem steps_of_included {t t' last' : State} {path' : Path} {root' : Ref}
    (h : Included env s s' path last root) (h' : Included env t t' path' last' root')
    (hfile : (env.files.key path').same (env.files.key path) = true) (hst : Steps env s t)
    (hne : t ≠ s) : Steps env last t := by
  -- The two includes begin in different states, so the later one comes behind the first step of the
  -- earlier one.
  have hs't : Steps env s' t := by
    cases hst using Relation.ReflTransGen.head_induction_on with
    | refl => exact absurd rfl hne
    | head hfirst hrest =>
        rw [h.entered] at hfirst
        cases hfirst
        exact hrest
  rcases inside_or_later h.inside (List.suffix_refl _) hs't with hwaiting | hlater
  · -- Inside the include its file is open, and cannot be opened again.
    rcases entered_eq_ok h.entered h.dependency with ⟨w, _, hw, hkey, -⟩
    rcases entered_eq_ok h'.entered h'.dependency with ⟨w', _, -, hkey', hopen', -⟩
    rcases openFile_eq_ok hopen' with ⟨-, hclosed, -⟩
    have hmem : w ∈ t.waiting := hwaiting.subset (hw ▸ List.mem_cons_self)
    have hopen : w.file ∈ t.openFiles :=
      List.mem_append_left _ (List.mem_map.2 ⟨w, hmem, rfl⟩)
    rw [Path.isIn, List.any_eq_false] at hclosed
    rw [← hkey, ← hkey'] at hfile
    exact absurd hfile (hclosed w.file hopen)
  · exact hlater

/-- A successful run comes to the end of every include that it enters. -/
theorem included_of_run {out : Output} (hrun : run env s' = .ok out)
    (hstep : step env s = .ok (.inl s'))
    (hdependency : s'.dependencies = s.dependencies ++ [⟨s.document.source, path⟩]) :
    ∃ last root, Included env s s' path last root := by
  rcases entered_eq_ok hstep hdependency with ⟨w, doc, hwaiting, -, -, -, hfirst⟩
  rw [← hfirst] at hrun
  rcases alone_of_run hwaiting rfl hrun with ⟨a, alone, left, hinside, halone, hleft, hrest⟩
  rw [hfirst] at hinside
  rcases step_eq_inr halone with ⟨hnone, hmode, -, -⟩
  refine ⟨s'.behind a, s'.heap.shift alone.root, hstep, hdependency, hinside, ?_, ?_,
    left, hleft, hrest⟩
  · simp [State.behind, hnone]
  · simp [State.behind, Document.mapRefs, Context.mapRefs, hmode, Mode.mapRefs]

/-- Every include of a successful reading gives what its file gives alone, with the edges that the
    file gives alone, in objects that were made for it and stay as they are; and two includes of one
    file have no object in common. -/
theorem include_hermetic {heap : Heap} {input : Input} {start : State} {out : Output}
    (hstart : input.start env heap = .ok start) (hout : input.read env heap = .ok out)
    (hs : Steps env start s) (hstep : step env s = .ok (.inl s'))
    (hdependency : s'.dependencies = s.dependencies ++ [⟨s.document.source, path⟩]) :
    ∃ last root, Included env s s' path last root ∧
      (∃ alone f, readPath env .empty path = .ok alone ∧
        Heap.IsoBelow alone.heap alone.root last.heap root f ∧
        last.dependencies = s'.dependencies ++ alone.dependencies) ∧
      (∀ x, Relation.ReflTransGen last.heap.Points root x →
        s.heap.size ≤ x ∧ x < last.heap.size ∧ out.heap.get x = last.heap.get x) ∧
      (∀ t t' path' last' root', Steps env start t → t ≠ s →
        Included env t t' path' last' root' →
        (env.files.key path').same (env.files.key path) = true →
        ∀ x, Relation.ReflTransGen last.heap.Points root x →
          ¬ Relation.ReflTransGen last'.heap.Points root' x) := by
  have hrun : run env s' = .ok out := by
    rcases Input.read_eq_ok_iff.1 hout with ⟨first, hfirst, hrun⟩
    rw [hstart] at hfirst
    cases hfirst
    rw [← run_of_steps (hs.tail hstep)]
    exact hrun
  rcases included_of_run hrun hstep hdependency with ⟨last, root, h⟩
  have hlast : Steps env start last := (hs.tail hstep).trans h.inside.steps
  have hsound : ∀ {t}, Steps env start t → t.Sound heap.size := steps_sound (start_sound hstart)
  refine ⟨last, root, h, ?_, ?_, ?_⟩
  · rcases alone_of_included h with ⟨first, a, alone, -, -, hfirst, hsteps, hend, rfl, rfl⟩
    rcases step_eq_inr hend with ⟨-, -, hheap, hdependencies⟩
    refine ⟨alone, s'.heap.shift, ?_, ?_, ?_⟩
    · refine Input.read_eq_ok_iff.2 ⟨first, hfirst, ?_⟩
      rw [run_of_steps hsteps, run_of_last hend]
    · rw [hheap]
      exact Heap.isoBelow_beside s'.heap a.heap alone.root
    · rw [hdependencies]
      rfl
  · intro x hx
    have hcompleted := completed_of_finished (hsound hlast) h.finished hx
    have hrest : run env last = .ok out := by
      rw [← run_of_steps h.inside.steps]
      exact hrun
    rcases steps_of_run hrest with ⟨final, hfinal, hend⟩
    have hsame := (same_of_completed (hsound hlast) hcompleted hfinal).2
    rcases fresh_of_included h hx with ⟨hle, hlt⟩
    rw [(step_eq_inr hend).2.2.1]
    exact ⟨hle, hlt, hsame⟩
  · intro t t' path' last' root' ht hne h' hfile x hx hx'
    have hfresh := fresh_of_included h hx
    have hfresh' := fresh_of_included h' hx'
    have hlast' : Steps env start last' := (ht.tail h'.entered).trans h'.inside.steps
    -- One of them ends before the other begins, and its objects are below the size of the heap
    -- there, while those of the other are not.
    rcases hs.total ht with hst | hts
    · have hsize := size_le_of_steps (hsound hlast) (steps_of_included h h' hfile hst hne)
      lia
    · have hfile' : (env.files.key path).same (env.files.key path') = true :=
        Path.same_iff.2 (Path.same_iff.1 hfile).symm
      have hsize := size_le_of_steps (hsound hlast')
        (steps_of_included h' h hfile' hts (Ne.symm hne))
      lia

/-- The object of an include, and the object that its file gives alone. -/
theorem include_hermetic_node :
    ∃ alone last root f,
      readPath (.nodes fun _ => .ok "Node \x7b\x7d") .empty ⟨"./a"⟩ = .ok alone ∧
      Heap.IsoBelow alone.heap alone.root last root f ∧ 1 ≤ root := by
  have hout : ((Input.text "Node \x7b next: <\"a\"> \x7d").outputWithin?
      (.nodes fun _ => .ok "Node \x7b\x7d") .empty 20).isSome = true := by
    decide +kernel
  have hentered : ((Input.text "Node \x7b next: <\"a\"> \x7d").stateAfter?
      (.nodes fun _ => .ok "Node \x7b\x7d") .empty 7).any
      (fun s => (Reader.stateAfter? (.nodes fun _ => .ok "Node \x7b\x7d") 1 s).any fun s' =>
        s'.dependencies = s.dependencies ++ [⟨s.document.source, ⟨"./a"⟩⟩] ∧
          s.heap.size = 1) = true := by
    decide +kernel
  rcases Option.isSome_iff_exists.1 hout with ⟨out, hout⟩
  rcases (Option.any_eq_true _ _).1 hentered with ⟨s, hs, hentered⟩
  rcases Input.steps_of_stateAfter? hs with ⟨start, hstart, hsteps⟩
  rcases (Option.any_eq_true _ _).1 hentered with ⟨s', hs', hentered⟩
  rcases of_decide_eq_true hentered with ⟨hdependency, hsize⟩
  rcases include_hermetic hstart (Input.read_of_outputWithin? hout) hsteps
      (step_of_stateAfter? hs') hdependency
    with ⟨last, root, -, ⟨alone, f, halone, hiso, -⟩, hfresh, -⟩
  exact ⟨alone, last.heap, root, f, halone, hiso, hsize ▸ (hfresh root .refl).1⟩

end

end Reader

end GraphText

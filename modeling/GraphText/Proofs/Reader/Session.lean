import GraphText.FileTree
import GraphText.Proofs.Dependency.Affected
import GraphText.Proofs.Reader.Located

/-!
# The files that are open

A reader keeps the canonical paths of the files that it is reading, to recognise
a file that includes itself and to limit how deep includes are nested. A state
has them in what waits, and a run that fails just ends, so a state cannot say
what becomes of the open files when an error passes through the calls that are
in progress. The moments of a reading can: they have the open files as a list of
their own, to which a call adds its file and from which its return takes one,
whether it returns an object or an error.

That the list is what it should be is an invariant of the moments. It holds the
files of the calls in progress and nothing else, so taking the last one off is
taking off one's own, and leaves what the call has found.

A file is looked for under its canonical path. Where all spellings of a file have
one canonical path, a file that is being read is therefore found however it is
spelled, and the include fails. It is the end of the reading, since no call goes
on behind an error.

## Main definitions

* `FileCall`, `Phase`, `Moment`: a moment of reading.
* `Moment.Next`, `Moment.Comes`: the moments that come up.
* `Moment.Disciplined`: what holds at every moment.
* `FileSystem.Canonical`: one canonical path for all spellings of a file.
* `State.openSources`: the files being read, as they are spelled.

## Theorems

* `chained_of_step`: what a step does to the open files.
* `Moment.Disciplined.enter`, `Moment.Disciplined.back`, `Moment.Disciplined.next`: what a call, its
  return and any other moment that comes next keep.
* `Moment.Disciplined.exists_next_of_step`: every step is one of the moments.
* `open_files_disciplined`: open files at every moment, and what becomes of an
  include that enters one of them.
-/

namespace GraphText

/-- Whether all spellings that lead to one existing file have one canonical path. -/
def FileSystem.Canonical {File : Type} (files : FileSystem) (leads : Path → Option File) : Prop :=
  ∀ p q file, leads p = some file → leads q = some file →
    ∃ c, files.canonical? p = some c ∧ files.canonical? q = some c

/-- The places of a tree are its files, and each of them has one canonical path. -/
theorem FileTree.canonical_toFileSystem (t : FileTree) :
    t.toFileSystem.Canonical fun p => (t.follow p).toOption := by
  intro p q place hp hq
  exact ⟨pathOf place, by simp [toFileSystem, hp], by simp [toFileSystem, hq]⟩

/-- Files that are the same have one key. -/
theorem FileSystem.key_eq_of_leads {File : Type} {files : FileSystem} {leads : Path → Option File}
    (h : files.Canonical leads) {p q : Path} {file : File} (hp : leads p = some file)
    (hq : leads q = some file) : files.key p = files.key q := by
  rcases h p q file hp hq with ⟨c, hcp, hcq⟩
  rw [key, key, hcp, hcq]
  rfl

namespace Reader

/-- The files that are being read, the innermost first: all documents but a text at the bottom. -/
def State.openSources (s : State) : List Path :=
  let sources := s.documents.map Document.source
  if s.rootFile.isSome then sources else sources.dropLast

/-- A call that reads a file: its path, and the files that were open when it was made, the outermost
    first. -/
structure FileCall where
  path : Path
  found : List Path

/-- What is going on: documents are read, an error is on its way out, or reading has ended. -/
inductive Phase where
  | reading (s : State)
  | failing (e : Error)
  | ended (out : Output)

/-- A moment of reading: the open files, the outermost first, and the calls in progress, the
    innermost first. -/
structure Moment where
  phase : Phase
  openFiles : List Path
  calls : List FileCall

namespace Moment

/-- The first moment of reading. -/
def first (env : Environment) (heap : Heap) (input : Input) : Moment :=
  match input.start env heap with
  | .error e => ⟨.failing e, [], []⟩
  | .ok s =>
    match input with
    | .text _ => ⟨.reading s, [], []⟩
    | .file path => ⟨.reading s, [env.files.key path], [⟨path, []⟩]⟩

/-- The moments that come next. A call adds the key of its file behind the open ones, and its return
    takes the last one off; a file that is refused is not added, and a text is none. -/
inductive Next (env : Environment) : Moment → Moment → Prop where
  | stay {s s' : State} {files : List Path} {calls : List FileCall}
      (hstep : step env s = .ok (.inl s')) (hsame : s'.waiting.length = s.waiting.length) :
      Next env ⟨.reading s, files, calls⟩ ⟨.reading s', files, calls⟩
  | call {s s' : State} {files : List Path} {calls : List FileCall}
      (hstep : step env s = .ok (.inl s')) (hdeeper : s'.waiting.length = s.waiting.length + 1) :
      Next env ⟨.reading s, files, calls⟩
        ⟨.reading s', files ++ [env.files.key s'.document.source],
          ⟨s'.document.source, files⟩ :: calls⟩
  | back {s s' : State} {files : List Path} {call : FileCall} {calls : List FileCall}
      (hstep : step env s = .ok (.inl s')) (hback : s.waiting.length = s'.waiting.length + 1) :
      Next env ⟨.reading s, files, call :: calls⟩ ⟨.reading s', files.dropLast, calls⟩
  | endText {s : State} {out : Output} {files : List Path}
      (hstep : step env s = .ok (.inr out)) :
      Next env ⟨.reading s, files, []⟩ ⟨.ended out, files, []⟩
  | endFile {s : State} {out : Output} {files : List Path} {call : FileCall}
      {calls : List FileCall} (hstep : step env s = .ok (.inr out)) :
      Next env ⟨.reading s, files, call :: calls⟩ ⟨.ended out, files.dropLast, calls⟩
  | fail {s : State} {e : Error} {files : List Path} {calls : List FileCall}
      (hstep : step env s = .error e) :
      Next env ⟨.reading s, files, calls⟩ ⟨.failing e, files, calls⟩
  /-- an error returns from the innermost call -/
  | unwind {e : Error} {files : List Path} {call : FileCall} {calls : List FileCall} :
      Next env ⟨.failing e, files, call :: calls⟩ ⟨.failing e, files.dropLast, calls⟩

/-- The moment comes up in this reading. -/
def Comes (env : Environment) (heap : Heap) (input : Input) : Moment → Prop :=
  Relation.ReflTransGen (Next env) (first env heap input)

/-- The canonical paths of the files of some calls, the outermost first. -/
def keys (env : Environment) (calls : List FileCall) : List Path :=
  (calls.map fun call => env.files.key call.path).reverse

/-- A moment and the next one, as a call and its return have them: a call finds what is open and
    adds its file, its return leaves what it has found, and nothing else changes the open files. -/
structure Balanced (env : Environment) (m m' : Moment) : Prop where
  called : ∀ call, m'.calls = call :: m.calls →
    call.found = m.openFiles ∧ m'.openFiles = m.openFiles ++ [env.files.key call.path]
  returned : ∀ call, m.calls = call :: m'.calls → m'.openFiles = call.found
  untouched : m'.calls = m.calls → m'.openFiles = m.openFiles

/-- Whether reading comes to what a moment shows, a state on the way or the result. -/
def Phase.Shows (env : Environment) (heap : Heap) (input : Input) : Phase → Prop
  | .reading s => ∃ start, input.start env heap = .ok start ∧ Steps env start s
  | .failing e => input.read env heap = .error e
  | .ended out => input.read env heap = .ok out

/-- What holds at every moment of reading: the open files are the canonical paths of the files being
    read, no two of them the same and not more than the limit; and every call in progress has found
    open what the calls around it have opened. -/
structure Disciplined (env : Environment) (heap : Heap) (input : Input) (m : Moment) : Prop where
  openFiles : m.openFiles = keys env m.calls
  distinct : Path.Distinct m.openFiles
  length_le : m.openFiles.length ≤ env.options.maxIncludeDepth
  found : ∀ call rest, call :: rest <:+ m.calls → call.found = keys env rest
  shows : Phase.Shows env heap input m.phase
  /-- the calls in progress are those of the files being read, and the open files are those by which
      a file is refused -/
  reading : ∀ s, m.phase = .reading s →
    m.calls.map FileCall.path = s.openSources ∧ m.openFiles = s.openFiles.reverse
  ended : ∀ out, m.phase = .ended out → m.calls = []

end Moment

/-- What a step does to the open files. -/
inductive Chained (env : Environment) (s s' : State) : Prop where
  | stays (hwaiting : s'.waiting.length = s.waiting.length)
      (hsources : s'.openSources = s.openSources) (hfiles : s'.openFiles = s.openFiles)
  | enters (hwaiting : s'.waiting.length = s.waiting.length + 1)
      (hsources : s'.openSources = s'.document.source :: s.openSources)
      (hfiles : s'.openFiles = env.files.key s'.document.source :: s.openFiles)
      (hclosed : (env.files.key s'.document.source).isIn s.openFiles = false)
      (hroom : s.openFiles.length < env.options.maxIncludeDepth)
  | leaves {source file} (hwaiting : s.waiting.length = s'.waiting.length + 1)
      (hsources : s.openSources = source :: s'.openSources)
      (hfiles : s.openFiles = file :: s'.openFiles)

section

variable {env : Environment} {heap : Heap} {input : Input} {start s s' : State}

/-- The open files with a document on top. -/
theorem openSources_cons {source : Path} (hroot : s'.rootFile = s.rootFile)
    (hsources : s'.documents.map Document.source = source :: s.documents.map Document.source) :
    s'.openSources = source :: s.openSources := by
  unfold State.openSources
  rw [hroot, hsources]
  split
  · rfl
  · rw [List.dropLast_cons_of_ne_nil (by simp [State.documents])]

/-- Every step does one of these things. -/
theorem chained_of_step (h : step env s = .ok (.inl s')) : Chained env s s' := by
  cases stepped_of_step h with
  | expand hread hl hexpand =>
      rcases expand_eq_ok hexpand with ⟨tokens, rfl⟩
      exact .stays rfl rfl rfl
  | move hread htokens hmove => exact .stays rfl rfl rfl
  | enter hread hmode henter =>
      rcases enter_eq_ok_iff.1 henter with ⟨file, included, hopen, rfl⟩
      rcases openFile_eq_ok hopen with ⟨rfl, hclosed, hroom, text, -, rfl⟩
      exact .enters rfl (openSources_cons rfl rfl) rfl hclosed hroom
  | @leave w rest _ _ hmode hwaiting hresume =>
      rcases resume_eq_ok hresume with ⟨heap', context, -, rfl⟩
      have hfiles : s.openFiles = w.file :: (rest.map Waiting.file ++ s.rootFile.toList) := by
        simp [State.openFiles, hwaiting]
      have hdocuments : s.documents.map Document.source = s.document.source ::
          w.document.source :: rest.map (Document.source ∘ Waiting.document) := by
        simp [State.documents, hwaiting]
      have hsources : s.openSources = s.document.source :: State.openSources
          { s with heap := heap', document := { w.document with context }, waiting := rest } :=
        openSources_cons rfl (by rw [hdocuments]; simp [State.documents])
      exact .leaves (congrArg List.length hwaiting) hsources hfiles

/-- The files that refuse another one are those that are being read. -/
theorem openFiles_of_steps (hstart : input.start env heap = .ok start) (hs : Steps env start s) :
    s.openFiles = s.openSources.map env.files.key := by
  refine hs.preserves (P := fun s => s.openFiles = s.openSources.map env.files.key) ?_ ?_
  · intro a b hstep ha
    cases chained_of_step hstep with
    | stays hwaiting hsources hfiles => rw [hfiles, hsources, ha]
    | enters hwaiting hsources hfiles hclosed hroom => rw [hfiles, hsources, ha, List.map_cons]
    | leaves hwaiting hsources hfiles =>
        rw [hfiles, hsources, List.map_cons] at ha
        exact (List.cons.inj ha).2
  · cases input with
    | text t =>
        cases hstart
        rfl
    | file path =>
        simp only [Input.start] at hstart
        split at hstart
        · cases hstart
        next hopen =>
          cases hstart
          rcases openFile_eq_ok hopen with ⟨rfl, -, -, text, -, rfl⟩
          rfl

/-- How many documents wait, from the files that are open. -/
theorem length_openSources (s : State) :
    s.openSources.length = s.waiting.length + s.rootFile.toList.length := by
  unfold State.openSources State.documents
  cases s.rootFile <;> simp

namespace Moment

variable {m m' : Moment}

theorem keys_cons (call : FileCall) (calls : List FileCall) :
    keys env (call :: calls) = keys env calls ++ [env.files.key call.path] := by
  simp [keys]

/-- Without the last one, the open files are those of the calls around the innermost one. -/
theorem Disciplined.dropLast_eq (h : Disciplined env heap input m) {call : FileCall}
    {calls : List FileCall} (hcalls : m.calls = call :: calls) :
    m.openFiles.dropLast = keys env calls := by
  rw [h.openFiles, hcalls, keys_cons, List.dropLast_concat]

/-- Before any call there is nothing to keep apart. -/
theorem disciplined_of_no_calls {phase : Phase} (hshows : Phase.Shows env heap input phase)
    (hreading : ∀ s, phase = .reading s → s.openSources = [] ∧ s.openFiles = []) :
    Disciplined env heap input ⟨phase, [], []⟩ := by
  constructor
  case openFiles => rfl
  case distinct => exact .nil
  case length_le => exact Nat.zero_le _
  case found => intro call rest h; cases List.suffix_nil.1 h
  case shows => exact hshows
  case reading =>
    intro s hs
    rcases hreading s hs with ⟨hsources, hopen⟩
    exact ⟨hsources.symm, by rw [hopen]; rfl⟩
  case ended => intro out _; rfl

/-- At its first moment, reading has called for its file. -/
theorem disciplined_first (env : Environment) (heap : Heap) (input : Input) :
    Disciplined env heap input (first env heap input) := by
  cases hstart : input.start env heap with
  | error e =>
      have hfirst : first env heap input = ⟨.failing e, [], []⟩ := by rw [first, hstart]
      rw [hfirst]
      refine disciplined_of_no_calls (Input.read_of_refused hstart) fun s h => ?_
      cases h
  | ok s =>
      have hshows : Phase.Shows env heap input (.reading s) := ⟨s, hstart, .refl⟩
      cases input with
      | text t =>
          have hfirst : first env heap (.text t) = ⟨.reading s, [], []⟩ := by rw [first, hstart]
          rw [hfirst]
          refine disciplined_of_no_calls hshows fun s' h => ?_
          cases h
          cases hstart
          exact ⟨rfl, rfl⟩
      | file path =>
          have hfirst : first env heap (.file path) =
              ⟨.reading s, [env.files.key path], [⟨path, []⟩]⟩ := by rw [first, hstart]
          rw [hfirst]
          simp only [Input.start] at hstart
          split at hstart
          · cases hstart
          next hopen =>
            cases hstart
            rcases openFile_eq_ok hopen with ⟨rfl, -, hroom, text, -, rfl⟩
            constructor
            case openFiles => rfl
            case distinct => exact List.pairwise_singleton _ _
            case length_le => exact hroom
            case found =>
              -- The only call is the one for this file, and it found nothing open.
              intro call rest h
              rcases List.suffix_cons_iff.1 h with heq | h
              · cases heq
                rfl
              · cases List.suffix_nil.1 h
            case shows => exact hshows
            case reading => intro s' h; cases h; exact ⟨rfl, rfl⟩
            case ended => intro out h; cases h

/-- Without the innermost call, what is said of open files and calls is so of the others. -/
theorem Disciplined.returned (h : Disciplined env heap input m) {call : FileCall}
    {calls : List FileCall} (hcalls : m.calls = call :: calls) :
    m.openFiles.dropLast = keys env calls ∧ Path.Distinct m.openFiles.dropLast ∧
      m.openFiles.dropLast.length ≤ env.options.maxIncludeDepth ∧
      ∀ c rest, c :: rest <:+ calls → c.found = keys env rest := by
  have hshorter := List.dropLast_sublist m.openFiles
  refine ⟨h.dropLast_eq hcalls, h.distinct.sublist hshorter,
    Nat.le_trans hshorter.length_le h.length_le, fun c rest hc => h.found c rest ?_⟩
  rw [hcalls]
  exact hc.trans (List.suffix_cons _ _)

/-- Reading goes on from the states that it comes to. -/
theorem shows_of_step (h : Phase.Shows env heap input (.reading s))
    (hstep : step env s = .ok (.inl s')) : Phase.Shows env heap input (.reading s') := by
  rcases h with ⟨start, hstart, hs⟩
  exact ⟨start, hstart, hs.tail hstep⟩

theorem shows_of_last {out : Output} (h : Phase.Shows env heap input (.reading s))
    (hstep : step env s = .ok (.inr out)) : Phase.Shows env heap input (.ended out) := by
  rcases h with ⟨start, hstart, hs⟩
  show input.read env heap = .ok out
  rw [Input.read_of_start hstart, run_of_steps hs, run_of_last hstep]

theorem shows_of_error {e : Error} (h : Phase.Shows env heap input (.reading s))
    (hstep : step env s = .error e) : Phase.Shows env heap input (.failing e) := by
  rcases h with ⟨start, hstart, hs⟩
  show input.read env heap = .error e
  rw [Input.read_of_start hstart, run_of_steps hs, run_of_error hstep]

section

variable {files : List Path} {call : FileCall} {calls : List FileCall}

/-- A call adds its file. The file is looked for among the open ones, and they are counted, before
    it is added. -/
theorem Disciplined.enter (h : Disciplined env heap input ⟨.reading s, files, calls⟩)
    (hstep : step env s = .ok (.inl s')) (hdeeper : s'.waiting.length = s.waiting.length + 1) :
    Disciplined env heap input ⟨.reading s', files ++ [env.files.key s'.document.source],
      ⟨s'.document.source, files⟩ :: calls⟩ := by
  rcases h.reading s rfl with ⟨hcalls, hfiles⟩
  have hreverse : files = s.openFiles.reverse := hfiles
  cases chained_of_step hstep with
  | stays hwaiting => omega
  | leaves hwaiting => omega
  | enters hwaiting hsources hopen hclosed hroom =>
      -- What the step has made sure of is about the same files, in the opposite order.
      have hfresh : (env.files.key s'.document.source).isIn files = false := by
        rw [hreverse, Path.isIn, List.any_reverse]
        exact hclosed
      constructor
      case openFiles =>
        rw [keys_cons]
        exact congrArg (· ++ _) h.openFiles
      case distinct => exact h.distinct.concat hfresh
      case length_le =>
        have hlength : files.length = s.openFiles.length := by rw [hreverse, List.length_reverse]
        show (files ++ [_]).length ≤ _
        rw [List.length_append, List.length_singleton]
        omega
      case found =>
        intro c rest hc
        rcases List.suffix_cons_iff.1 hc with heq | hc
        · cases heq
          exact h.openFiles
        · exact h.found c rest hc
      case shows => exact shows_of_step h.shows hstep
      case reading =>
        intro t ht
        cases ht
        refine ⟨?_, ?_⟩
        · rw [hsources, List.map_cons, ← hcalls]
        · rw [hopen, List.reverse_cons, ← hfiles]
      case ended => intro out hout; cases hout

/-- A call that returns takes the last file off. -/
theorem Disciplined.back (h : Disciplined env heap input ⟨.reading s, files, call :: calls⟩)
    (hstep : step env s = .ok (.inl s')) (hback : s.waiting.length = s'.waiting.length + 1) :
    Disciplined env heap input ⟨.reading s', files.dropLast, calls⟩ := by
  rcases h.reading s rfl with ⟨hcalls, hfiles⟩
  rcases h.returned rfl with ⟨hkeys, hdistinct, hlength, hfound⟩
  cases chained_of_step hstep with
  | stays hwaiting => omega
  | enters hwaiting => omega
  | leaves hwaiting hsources hopen =>
      refine ⟨hkeys, hdistinct, hlength, hfound, shows_of_step h.shows hstep, fun t ht => ?_,
        fun out hout => by cases hout⟩
      cases ht
      refine ⟨?_, ?_⟩
      · rw [hsources, List.map_cons] at hcalls
        exact (List.cons.inj hcalls).2
      · show files.dropLast = _
        rw [show files = s.openFiles.reverse from hfiles, hopen, List.reverse_cons,
          List.dropLast_concat]

/-- At the end nothing waits, so a call in progress is the only one. -/
theorem Disciplined.calls_of_last {out : Output}
    (h : Disciplined env heap input ⟨.reading s, files, call :: calls⟩)
    (hstep : step env s = .ok (.inr out)) : calls = [] := by
  have hlength := congrArg List.length (h.reading s rfl).1
  rw [length_openSources, (step_eq_inr hstep).1, List.length_map, List.length_cons] at hlength
  have hroot : s.rootFile.toList.length ≤ 1 := by cases s.rootFile <;> simp
  exact List.length_eq_zero_iff.1 (by simp only [List.length_nil] at hlength; omega)

end

/-- What a moment has behind it is kept by the next one. -/
theorem Disciplined.next (h : Disciplined env heap input m) (hnext : Next env m m') :
    Disciplined env heap input m' := by
  cases hnext with
  | @stay s s' files calls hstep hsame =>
      rcases h.reading s rfl with ⟨hcalls, hfiles⟩
      -- A step that keeps the documents that wait neither opens nor leaves a file.
      cases chained_of_step hstep with
      | stays hwaiting hsources hopen =>
          refine ⟨h.openFiles, h.distinct, h.length_le, h.found, shows_of_step h.shows hstep,
            fun t ht => ?_, fun out hout => by cases hout⟩
          cases ht
          exact ⟨hcalls.trans hsources.symm, hopen ▸ hfiles⟩
      | enters hwaiting => omega
      | leaves hwaiting => omega
  | call hstep hdeeper => exact h.enter hstep hdeeper
  | back hstep hback => exact h.back hstep hback
  | endText hstep =>
      exact ⟨h.openFiles, h.distinct, h.length_le, h.found, shows_of_last h.shows hstep,
        (fun t ht => by cases ht), fun _ _ => rfl⟩
  | endFile hstep =>
      rcases h.returned rfl with ⟨hkeys, hdistinct, hlength, hfound⟩
      exact ⟨hkeys, hdistinct, hlength, hfound, shows_of_last h.shows hstep,
        (fun t ht => by cases ht), fun _ _ => h.calls_of_last hstep⟩
  | fail hstep =>
      exact ⟨h.openFiles, h.distinct, h.length_le, h.found, shows_of_error h.shows hstep,
        (fun t ht => by cases ht), fun out hout => by cases hout⟩
  | unwind =>
      rcases h.returned rfl with ⟨hkeys, hdistinct, hlength, hfound⟩
      exact ⟨hkeys, hdistinct, hlength, hfound, h.shows, (fun t ht => by cases ht),
        fun out hout => by cases hout⟩

/-- Every moment that comes up is disciplined. -/
theorem disciplined_of_comes (h : Comes env heap input m) : Disciplined env heap input m := by
  induction h with
  | refl => exact disciplined_first env heap input
  | tail _ hnext ih => exact ih.next hnext

theorem ne_cons_cons {call around : FileCall} {calls : List FileCall} :
    calls ≠ around :: call :: calls := by
  intro heq
  have hlength := congrArg List.length heq
  simp only [List.length_cons] at hlength
  omega

/-- A call finds what is open, and leaves it when it returns. -/
theorem Disciplined.balanced (h : Disciplined env heap input m) (hnext : Next env m m') :
    Balanced env m m' := by
  -- What a return leaves are the files of the calls around it, and those it has found.
  have hreturned : ∀ call, m.calls = call :: m'.calls →
      m.openFiles.dropLast = call.found := by
    intro call hcalls
    rw [h.dropLast_eq hcalls, h.found call m'.calls (hcalls ▸ List.suffix_refl _)]
  cases hnext with
  | stay hstep hsame =>
      exact ⟨fun c hc => absurd hc.symm (List.cons_ne_self _ _),
        fun c hc => absurd hc.symm (List.cons_ne_self _ _), fun _ => rfl⟩
  | call hstep hdeeper =>
      refine ⟨fun c hc => ?_, fun c hc => ?_, fun hc => absurd hc (List.cons_ne_self _ _)⟩
      · cases hc
        exact ⟨rfl, rfl⟩
      · exact absurd hc ne_cons_cons
  | back hstep hback =>
      exact ⟨fun c hc => absurd hc ne_cons_cons, hreturned,
        fun hc => absurd hc.symm (List.cons_ne_self _ _)⟩
  | endText hstep => exact ⟨(fun c hc => by cases hc), (fun c hc => by cases hc), fun _ => rfl⟩
  | endFile hstep =>
      exact ⟨fun c hc => absurd hc ne_cons_cons, hreturned,
        fun hc => absurd hc.symm (List.cons_ne_self _ _)⟩
  | fail hstep =>
      exact ⟨fun c hc => absurd hc.symm (List.cons_ne_self _ _),
        fun c hc => absurd hc.symm (List.cons_ne_self _ _), fun _ => rfl⟩
  | unwind =>
      exact ⟨fun c hc => absurd hc ne_cons_cons, hreturned,
        fun hc => absurd hc.symm (List.cons_ne_self _ _)⟩

/-- A moment in a state goes on with every step from that state. -/
theorem Disciplined.exists_next_of_step (h : Disciplined env heap input m)
    (hphase : m.phase = .reading s) (hstep : step env s = .ok (.inl s')) :
    ∃ m', Next env m m' ∧ m'.phase = .reading s' := by
  rcases m with ⟨phase, files, calls⟩
  cases hphase
  cases chained_of_step hstep with
  | stays hwaiting hsources hopen => exact ⟨_, .stay hstep hwaiting, rfl⟩
  | enters hwaiting hsources hopen hclosed hroom => exact ⟨_, .call hstep hwaiting, rfl⟩
  | leaves hwaiting hsources hopen =>
      cases calls with
      | nil =>
          have hnone := (h.reading s rfl).1
          rw [hsources] at hnone
          cases hnone
      | cons call rest => exact ⟨_, .back hstep hwaiting, rfl⟩

/-- Every state of a reading is one of its moments. -/
theorem exists_moment (hstart : input.start env heap = .ok start) (hs : Steps env start s) :
    ∃ m, Comes env heap input m ∧ m.phase = .reading s := by
  induction hs with
  | refl =>
      refine ⟨first env heap input, .refl, ?_⟩
      rw [first, hstart]
      cases input <;> rfl
  | tail _ hstep ih =>
      rcases ih with ⟨m, hm, hphase⟩
      rcases (disciplined_of_comes hm).exists_next_of_step hphase hstep with ⟨m', hnext, hphase'⟩
      exact ⟨m', hm.tail hnext, hphase'⟩

/-- Only when every call has returned no moment comes next. -/
theorem Disciplined.openFiles_of_last (h : Disciplined env heap input m)
    (hlast : ∀ m', ¬ Next env m m') : m.openFiles = [] := by
  -- A failure unwinds one call after the other, and success comes after the last of them.
  have hnone : m.calls = [] := by
    rcases hm : m with ⟨phase, files, calls⟩
    cases phase with
    | failing e =>
        cases calls with
        | nil => rfl
        | cons call rest => exact absurd .unwind (hm ▸ hlast _)
    | ended out => exact (hm ▸ h).ended out rfl
    | reading s =>
        cases hstep : step env s with
        | error e => exact absurd (.fail hstep) (hm ▸ hlast _)
        | ok result =>
            cases result with
            | inl s' =>
                rcases h.exists_next_of_step (by rw [hm]) hstep with ⟨m', hnext, -⟩
                exact absurd hnext (hlast m')
            | inr out =>
                cases calls with
                | nil => rfl
                | cons call rest => exact absurd (.endFile hstep) (hm ▸ hlast _)
  rw [h.openFiles, hnone]
  rfl

end Moment

theorem included?_eq_some {path : Path} (h : s.included? = some path) :
    ∃ p written target token after, s.document.context.mode = .includingPath p written target ∧
      s.document.tokens.next = .ok (token, after) ∧ token.lexeme = .punct '>' ∧
      path = s.document.directory.join ⟨written⟩ := by
  unfold State.included? at h
  split at h
  next hmode hnext =>
    cases h
    exact ⟨_, _, _, _, _, hmode, hnext, rfl, rfl⟩
  next => cases h

/-- An include of a file that is being read is refused, however it is spelled. -/
theorem step_of_reentered {File : Type} {leads : Path → Option File} {path source : Path}
    {file : File} (hcanonical : env.files.Canonical leads)
    (hfiles : s.openFiles = s.openSources.map env.files.key) (hpath : s.included? = some path)
    (hsource : source ∈ s.openSources) (hleads : leads path = some file)
    (hsame : leads source = some file) :
    ∃ p, step env s = .error ⟨.includeCycle path, some (s.document.locate p)⟩ := by
  rcases included?_eq_some hpath with ⟨p, written, target, token, after, hmode, hnext, hl, rfl⟩
  have hopen : (env.files.key (s.document.directory.join ⟨written⟩)).isIn s.openFiles = true := by
    rw [FileSystem.key_eq_of_leads hcanonical hleads hsame, hfiles]
    exact Path.isIn_of_mem (List.mem_map_of_mem hsource)
  have hrefused : openFile env s.openFiles (s.document.directory.join ⟨written⟩) =
      .error (.includeCycle (s.document.directory.join ⟨written⟩)) := by
    simp only [openFile, hopen, if_true]
  have hread : s.document.read s.document.tokens = .ok (token, after) := by
    rw [Document.read, hnext]
    rfl
  have hturn : turn env.registry s.document.source s.heap s.document.context token =
      .ok (.enter written p target) := by
    simp only [turn, hmode, hl, if_true]
  refine ⟨p, ?_⟩
  rw [step_of_turn hread (by rw [hl]; decide) hturn]
  simp only [Turn.outcome, State.enter, hrefused]
  rfl

end

/-- At every moment of a reading the open files are the canonical paths of the files being read, the
    outermost first, no two of them the same, and not more than the limit; a call that reads a file
    leaves them as it has found them, whatever it returns; and every state of the reading is one of
    its moments. Where all spellings of an existing file have one canonical path, reading fails if
    an include leads to a file that is being read. -/
theorem open_files_disciplined (env : Environment) (heap : Heap) (input : Input) :
    (∀ m, Moment.Comes env heap input m → m.Disciplined env heap input ∧
      (∀ m', Moment.Next env m m' → m.Balanced env m') ∧
      ((∀ m', ¬ Moment.Next env m m') → m.openFiles = [])) ∧
    (∀ start s, input.start env heap = .ok start → Steps env start s →
      ∃ m, Moment.Comes env heap input m ∧ m.phase = .reading s) ∧
    ∀ (File : Type) (leads : Path → Option File), env.files.Canonical leads →
      ∀ start s path source file, input.start env heap = .ok start → Steps env start s →
        s.included? = some path → source ∈ s.openSources →
        leads path = some file → leads source = some file →
        ∃ location, input.read env heap = .error ⟨.includeCycle path, some location⟩ := by
  refine ⟨fun m hm => ?_, fun start s hstart hs => Moment.exists_moment hstart hs, ?_⟩
  · have h := Moment.disciplined_of_comes hm
    exact ⟨h, fun m' hnext => h.balanced hnext, h.openFiles_of_last⟩
  · intro File leads hcanonical start s path source file hstart hs hpath hsource hleads hsame
    rcases step_of_reentered hcanonical (openFiles_of_steps hstart hs) hpath hsource hleads hsame
      with ⟨p, hstep⟩
    refine ⟨s.document.locate p, ?_⟩
    rw [Input.read_of_start hstart, run_of_steps hs, run_of_error hstep]

/-- Two files that include each other under roundabout names, beside an empty directory. -/
def windingFiles : FileTree :=
  (((FileTree.empty ["p"]).addDirectory ["p", "sub"]).addFile ["p", "a"]
    "Node \x7b next: <\"sub/../b\"> \x7d".toUTF8).addFile ["p", "b"]
      "Node \x7b next: <\"/p/./a\"> \x7d".toUTF8

/-- Reading nodes from these files. -/
def Environment.winding : Environment :=
  { registry := .nodes, files := windingFiles.toFileSystem, options := {} }

/-- While the second file is being read both are open, and the first one is recognised. -/
theorem open_files_disciplined_winding :
    (∃ m, Moment.Comes .winding .empty (.file ⟨"a"⟩) m ∧
      m.openFiles = [⟨"/p/a"⟩, ⟨"/p/b"⟩]) ∧
    ∃ location, (Input.file ⟨"a"⟩).read .winding .empty =
      .error ⟨.includeCycle ⟨"/p/./a"⟩, some location⟩ := by
  have hstate : ((Input.file ⟨"a"⟩).stateAfter? .winding .empty 15).any
      (fun s => s.included? = some ⟨"/p/./a"⟩ ∧ s.openSources = [⟨"./sub/../b"⟩, ⟨"a"⟩] ∧
        s.openFiles = [⟨"/p/b"⟩, ⟨"/p/a"⟩]) = true := by
    decide +kernel
  have hleads : (windingFiles.follow ⟨"/p/./a"⟩).toOption = some ["p", "a"] ∧
      (windingFiles.follow ⟨"a"⟩).toOption = some ["p", "a"] := by
    decide +kernel
  rcases (Option.any_eq_true _ _).1 hstate with ⟨s, hs, hstate⟩
  rcases of_decide_eq_true hstate with ⟨hincluded, hsources, hfiles⟩
  rcases Input.steps_of_stateAfter? hs with ⟨start, hstart, hsteps⟩
  rcases open_files_disciplined .winding .empty (.file ⟨"a"⟩) with ⟨hmoments, hcomes, hreentry⟩
  refine ⟨?_, ?_⟩
  · rcases hcomes start s hstart hsteps with ⟨m, hm, hphase⟩
    refine ⟨m, hm, ?_⟩
    rw [((hmoments m hm).1.reading s hphase).2, hfiles]
    rfl
  · exact hreentry Place _ (FileTree.canonical_toFileSystem windingFiles) start s ⟨"/p/./a"⟩ ⟨"a"⟩
      ["p", "a"] hstart hsteps hincluded (by simp [hsources]) hleads.1 hleads.2

end Reader

end GraphText

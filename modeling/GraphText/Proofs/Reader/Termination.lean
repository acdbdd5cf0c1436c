import GraphText.Proofs.Reader.Steps
import GraphText.Proofs.Registry.Bases

/-!
# Reading ends

Whatever is read, in a text or in files, reading comes to an object or to an
error after finitely many steps. What goes down in each of them is the rank of
the state, so this is an induction on the run itself: constants that contain
each other and files that include each other are bounded by the limits of the
options, and whatever the limits are, so is the run.

Within a step the one search that need not end is that for a type among the
bases of another one. Where the bases of every type come to an end it is decided
after as many looks as there are types, and one more, so a step is as finite as
the run. The last search is that for the type a file should be of; it is made
behind the run, and shares its count here.

## Main definitions

* `answerWithin?`: what a run comes to within some steps, an error included.
* `Input.answerWithin?`, `pathAsWithin?`: the same of reading.

## Theorems

* `run_of_answerWithin?`: such an answer is that of the run.
* `exists_answerWithin?`: there is one.
* `reading_ends`: reading comes to its result in finitely many steps.
-/

namespace GraphText.Reader

/-- What a run comes to within this many steps, if it is over then. -/
def answerWithin? (env : Environment) (n : Nat) (s : State) : Option (Except Error Output) :=
  match runFor env n s with
  | .error e => some (.error e)
  | .ok (.inr out) => some (.ok out)
  | .ok (.inl _) => none

/-- What reading comes to within this many steps, if it is over then. -/
def Input.answerWithin? (env : Environment) (heap : Heap) (n : Nat) (input : Input) :
    Option (Except Error Output) :=
  match input.start env heap with
  | .error e => some (.error e)
  | .ok start => Reader.answerWithin? env n start

/-- What reading a file whose object must be of a type comes to within this many steps and as many
    looks for the type. -/
def pathAsWithin? (env : Environment) (heap : Heap) (n : Nat) (path : Path) (typeName : String) :
    Option (Except Error Output) :=
  match (Input.file path).answerWithin? env heap n with
  | none => none
  | some (.error e) => some (.error e)
  | some (.ok output) =>
    let actual := (output.heap.get output.root).typeName
    (env.registry.walk typeName n actual).map fun derived =>
      if derived then .ok output else .error ⟨.wrongRoot typeName actual, some ⟨path, .start⟩⟩

section

variable {env : Environment} {s s' : State} {n : Nat}

theorem answerWithin?_of_error {e : Error} (h : step env s = .error e) :
    answerWithin? env (n + 1) s = some (.error e) := by
  simp [answerWithin?, runFor, h, bind, Except.bind]

theorem answerWithin?_of_last {out : Output} (h : step env s = .ok (.inr out)) :
    answerWithin? env (n + 1) s = some (.ok out) := by
  simp [answerWithin?, runFor, h, bind, Except.bind]

theorem answerWithin?_of_step (h : step env s = .ok (.inl s')) :
    answerWithin? env (n + 1) s = answerWithin? env n s' := by
  simp [answerWithin?, runFor, h, bind, Except.bind]

/-- What a run comes to within some steps is what it comes to. -/
theorem run_of_answerWithin? {answer : Except Error Output}
    (h : answerWithin? env n s = some answer) : run env s = answer := by
  induction n generalizing s with
  | zero => cases h
  | succ n ih =>
      cases hstep : step env s with
      | error e =>
          rw [answerWithin?_of_error hstep] at h
          cases h
          exact run_of_error hstep
      | ok result =>
          cases result with
          | inl next =>
              rw [answerWithin?_of_step hstep] at h
              exact (run_of_step hstep).trans (ih h)
          | inr out =>
              rw [answerWithin?_of_last hstep] at h
              cases h
              exact run_of_last hstep

/-- There are steps within which a run is over, and it stays over. The induction is on the run, as
    `step_rank` makes it finite. -/
theorem exists_answerWithin? (env : Environment) (s : State) :
    ∃ n, ∀ m, n ≤ m → answerWithin? env m s = some (run env s) := by
  fun_induction run env s with
  | case1 s e hstep =>
      refine ⟨1, fun m hm => ?_⟩
      rcases Nat.exists_eq_add_of_le' hm with ⟨k, rfl⟩
      exact answerWithin?_of_error hstep
  | case2 s out hstep =>
      refine ⟨1, fun m hm => ?_⟩
      rcases Nat.exists_eq_add_of_le' hm with ⟨k, rfl⟩
      exact answerWithin?_of_last hstep
  | case3 s next hstep ih =>
      rcases ih with ⟨n, hn⟩
      refine ⟨n + 1, fun m hm => ?_⟩
      rcases Nat.exists_eq_add_of_le' hm with ⟨k, rfl⟩
      exact (answerWithin?_of_step hstep).trans (hn (k + n) (by omega))

/-- What reading comes to within some steps is what it comes to. -/
theorem Input.read_of_answerWithin? {heap : Heap} {input : Input} {answer : Except Error Output}
    (h : input.answerWithin? env heap n = some answer) : input.read env heap = answer := by
  cases input with
  | text t => exact run_of_answerWithin? h
  | file path =>
      simp only [answerWithin?, start] at h
      simp only [read, readPath]
      cases hopened : openFile env [] path with
      | error cause =>
          rw [hopened] at h
          exact Option.some.inj h
      | ok opened =>
          rw [hopened] at h
          exact run_of_answerWithin? h

/-- Reading a text or a file is over after some steps. -/
theorem Input.exists_answerWithin? (env : Environment) (heap : Heap) (input : Input) :
    ∃ n, ∀ m, n ≤ m → input.answerWithin? env heap m = some (input.read env heap) := by
  cases input with
  | text t => exact Reader.exists_answerWithin? env _
  | file path =>
      simp only [answerWithin?, start, read, readPath]
      cases openFile env [] path with
      | error cause => exact ⟨0, fun _ _ => rfl⟩
      | ok opened => exact Reader.exists_answerWithin? env _

/-- So is reading a file whose object must be of a type, if the types that it may derive from come
    to an end. -/
theorem exists_pathAsWithin? (hends : env.registry.HasEnds) (heap : Heap) (path : Path)
    (typeName : String) :
    ∃ n, ∀ m, n ≤ m →
      pathAsWithin? env heap m path typeName = some (readPathAs env heap path typeName) := by
  rcases Input.exists_answerWithin? env heap (.file path) with ⟨n, hn⟩
  refine ⟨max n (env.registry.specs.length + 1), fun m hm => ?_⟩
  have hread : (Input.file path).answerWithin? env heap m = some (readPath env heap path) :=
    hn m (by omega)
  rw [pathAsWithin?, hread, readPathAs]
  cases readPath env heap path with
  | error e => rfl
  | ok output =>
      have hsome := Registry.walk_isSome_of_hasEnds hends typeName
        (output.heap.get output.root).typeName
      rcases Option.isSome_iff_exists.1 hsome with ⟨answer, hanswer⟩
      have hlater := Registry.walk_of_le hanswer (by omega : _ ≤ m)
      simp only [bind, Except.bind, Registry.isDerivedFrom, hanswer, hlater, Option.map_some]

end

/-- Reading ends. In a registry in which the bases of every type do, each search for a type that a
    step makes is decided after as many looks as there are types and one more, and every text and
    every file comes to its result after finitely many steps, whatever the files, the limits and the
    heap are. -/
theorem reading_ends {env : Environment} (hends : env.registry.HasEnds) (heap : Heap) :
    (∀ name target, env.registry.walk target (env.registry.specs.length + 1) name =
      some (env.registry.isDerivedFrom name target)) ∧
    (∀ input : Input, ∃ n, ∀ m, n ≤ m →
      input.answerWithin? env heap m = some (input.read env heap)) ∧
    ∀ path typeName, ∃ n, ∀ m, n ≤ m →
      pathAsWithin? env heap m path typeName = some (readPathAs env heap path typeName) := by
  refine ⟨fun name target => ?_, Input.exists_answerWithin? env heap,
    exists_pathAsWithin? hends heap⟩
  have hsome := Registry.walk_isSome_of_hasEnds hends target name
  rcases Option.isSome_iff_exists.1 hsome with ⟨answer, hanswer⟩
  rw [Registry.isDerivedFrom, hanswer]

/-- One file under all names, which includes itself by another one. -/
def Environment.circling : Environment :=
  { registry := .nodes
    files :=
      { canonical? := fun _ => some ⟨"/a"⟩
        read := fun _ => .ok "Node \x7b next: <\"b\"> \x7d" }
    options := {} }

/-- Two constants, each of which stands for the other. -/
def exchanged : Input :=
  .text "Node \x7b [X: \"$Y\", Y: \"$X\"], next: $X \x7d"

/-- Files and constants that contain themselves do not keep reading from its end. -/
theorem reading_ends_circling :
    Environment.circling.registry.HasEnds ∧
      (∃ n, ∀ m, n ≤ m → (Input.file ⟨"a"⟩).answerWithin? .circling .empty m =
        some ((Input.file ⟨"a"⟩).read .circling .empty)) ∧
      (∃ n, ∀ m, n ≤ m → exchanged.answerWithin? .circling .empty m =
        some (exchanged.read .circling .empty)) ∧
      ∃ n, ∀ m, n ≤ m → pathAsWithin? .circling .empty m ⟨"a"⟩ "Node" =
        some (readPathAs .circling .empty ⟨"a"⟩ "Node") := by
  have hends : Environment.circling.registry.HasEnds := by
    intro name
    refine ⟨name, .refl, ?_⟩
    by_cases hname : "Node" = name
    · simp [Registry.baseOf?, Registry.find?, Environment.circling, Registry.nodes, hname]
    · simp [Registry.baseOf?, Registry.find?, Environment.circling, Registry.nodes, hname]
  obtain ⟨-, hinput, hpath⟩ := reading_ends hends .empty
  exact ⟨hends, hinput (.file ⟨"a"⟩), hinput exchanged, hpath ⟨"a"⟩ "Node"⟩

end GraphText.Reader

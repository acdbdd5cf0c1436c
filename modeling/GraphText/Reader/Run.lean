import GraphText.Reader.Rank

/-!
# Reading graph texts

A reader runs from the beginning of a document until it ends or fails. The
objects it reads are added to a heap; a failing run yields an error alone, so
the heap of the caller stays as it was.

`runFor` is the same run cut off after some steps, for statements about what
holds on the way.

## Main definitions

* `Reader.run`, `Reader.runFor`: the run of a reader.
* `readText`, `readPath`: reading a text or a file.
* `readPathAs`: reading a file whose object must be of a type.

## Theorems

* `Reader.run_of_step`: a run goes on as it does after a step.
-/

namespace GraphText

namespace Reader

/-- A rank that goes down as this environment says. -/
structure Remaining (env : Environment) where
  rank : Rank

instance (env : Environment) : WellFoundedRelation (Remaining env) :=
  ⟨fun a b => env.RankLess a.rank b.rank, InvImage.wf _ env.rankLess_wellFounded⟩

/-- Steps until the document at the bottom ends or something fails. -/
def run (env : Environment) (s : State) : Except Error Output :=
  match _next : step env s with
  | .error e => .error e
  | .ok (.inr output) => .ok output
  | .ok (.inl s') => run env s'
termination_by (⟨s.rank⟩ : Remaining env)
decreasing_by exact step_rank _next

/-- The state after this many steps, unless the run is over before. -/
def runFor (env : Environment) : Nat → State → Except Error (State ⊕ Output)
  | 0, s => .ok (.inl s)
  | n + 1, s => do
    match ← step env s with
    | .inl s' => runFor env n s'
    | .inr output => .ok (.inr output)

/-- A run goes on as it does after a step. -/
theorem run_of_step {env : Environment} {s s' : State} (h : step env s = .ok (.inl s')) :
    run env s = run env s' := by
  rw [run]
  split <;> simp_all

end Reader

open Reader

/-- Reads a text that is not a file. -/
def readText (env : Environment) (heap : Heap) (text : String) : Except Error Output :=
  run env
    { heap
      dependencies := []
      document := .ofText Location.stringSource env.options.textDirectory text }

/-- Reads a file. -/
def readPath (env : Environment) (heap : Heap) (path : Path) : Except Error Output :=
  match openFile env [] path with
  | .error cause => .error ⟨cause, none⟩
  | .ok (file, document) => run env { heap, dependencies := [], document, rootFile := some file }

/-- Reads a file whose object must be of a type or derive from it. -/
def readPathAs (env : Environment) (heap : Heap) (path : Path) (typeName : String) :
    Except Error Output := do
  let output ← readPath env heap path
  let actual := (output.heap.get output.root).typeName
  if env.registry.isDerivedFrom actual typeName then .ok output
  else .error ⟨.wrongRoot typeName actual, some ⟨path, .start⟩⟩

end GraphText

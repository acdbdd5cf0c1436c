import GraphText.Heap

/-!
# Events of a writer

What a writer does is first worked out as a list of events and then carried out
on an output. The events say in which order text is put out, objects are
labelled and the filter is asked, so an output that fails in the middle knows
which of them have happened.

A filter is asked before an object is written and told when one has been
written. It may answer by anything, also by what it was asked before: its state
goes from question to question. Every event of the filter holds the state that
the filter is in afterwards.

Writing is put together from small actions that know which objects have been
written already and what the filter remembers. Actions are joined by `++`, in
the order in which they happen.

## Main definitions

* `Filter`: what decides which objects are written.
* `Event`: text, a label, or a word with the filter.
* `Action`: what is to be done, given what has been done.
* `Action.text`, `Action.ifEntered`, `Action.exit`: the small actions.

## Theorems

* `Action.append_assoc`: joining is associative.
-/

namespace GraphText.Writer

/-- What decides which objects are written. The first question is asked before an object is written,
    and may be answered with no; the other is word that it has been. -/
structure Filter (σ : Type) where
  enter : σ → Instance → Bool × σ
  exit : σ → Instance → σ

/-- The filter that lets everything be written. -/
def Filter.all : Filter Unit where
  enter _ _ := (true, ())
  exit _ _ := ()

/-- One thing that a writer does. -/
inductive Event (σ : Type) where
  | text (s : String)
  /-- a comment that tells an object from all others -/
  | label (r : Ref)
  /-- a question to the filter, its answer and its state afterwards -/
  | entered (r : Ref) (accepted : Bool) (state : σ)
  /-- word to the filter and its state afterwards -/
  | exited (r : Ref) (state : σ)

/-- What an event puts out, if no output refuses it. Labels are not a part of that. -/
def Event.shown {σ : Type} : Event σ → String
  | .text s => s
  | _ => ""

/-- What has been done: the objects that have been written, and the state of the filter. -/
structure Progress (σ : Type) where
  written : List Ref := []
  filter : σ

/-- What is to be done, given what has been done: events, and what has been done then. -/
def Action (σ : Type) := Progress σ → List (Event σ) × Progress σ

namespace Action

variable {σ : Type}

/-- Nothing. -/
def skip : Action σ := fun p => ([], p)

/-- One action, then another. -/
def append (a b : Action σ) : Action σ := fun p =>
  let (first, p) := a p
  let (second, p) := b p
  (first ++ second, p)

instance : Append (Action σ) := ⟨append⟩

/-- Actions one after another. -/
def sequence : List (Action σ) → Action σ
  | [] => skip
  | a :: rest => a ++ sequence rest

/-- Puts out a text. -/
def text (s : String) : Action σ := fun p => ([.text s], p)

/-- Labels an object. -/
def label (r : Ref) : Action σ := fun p => ([.label r], p)

/-- Remembers that an object has been written. -/
def mark (r : Ref) : Action σ := fun p => ([], { p with written := r :: p.written })

/-- Asks the filter about an object, and goes on by its answer. -/
def ifEntered (f : Filter σ) (h : Heap) (r : Ref) (yes no : Action σ) : Action σ := fun p =>
  let (accepted, state) := f.enter p.filter (h.get r)
  let (events, p) := (if accepted then yes else no) { p with filter := state }
  (.entered r accepted state :: events, p)

/-- Tells the filter that an object has been written. -/
def exit (f : Filter σ) (h : Heap) (r : Ref) : Action σ := fun p =>
  let state := f.exit p.filter (h.get r)
  ([.exited r state], { p with filter := state })

theorem append_apply (a b : Action σ) (p : Progress σ) :
    (a ++ b) p = ((a p).1 ++ (b (a p).2).1, (b (a p).2).2) := rfl

@[simp] theorem skip_append (a : Action σ) : skip ++ a = a := rfl

@[simp] theorem append_skip (a : Action σ) : a ++ skip = a := by
  funext p
  simp [append_apply, skip]

theorem append_assoc (a b c : Action σ) : a ++ b ++ c = a ++ (b ++ c) := by
  funext p
  simp [append_apply]

end Action

end GraphText.Writer

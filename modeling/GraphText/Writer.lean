import GraphText.Writer.Script
import GraphText.Writer.Sink

/-!
# Writers

A writer puts comments, objects and single fields on one output, in the order
in which it is asked to. What the filter remembers and how much room is left
goes from one call to the next; the names that shared objects get do not.

A call works out its events and then carries them out. If it fails for a reason
of its own, such as an unknown type, the events are those from before the
failure, and none of them is text.

## Main definitions

* `Writer`: an output and the state of a filter.
* `Writer.comment`, `Writer.object`, `Writer.field`: the calls.
* `objectText?`: the text of an object by itself.
-/

namespace GraphText

/-- An output and the state of the filter that decides what is written on it. -/
structure Writer (σ : Type) where
  sink : Writer.Sink := {}
  filter : σ

namespace Writer

/-- Why a call fails. -/
inductive Failure where
  /-- the graph cannot be written -/
  | graph (cause : Cause)
  /-- the output does not take any more -/
  | output
  deriving DecidableEq

variable {σ : Type}

/-- What a call comes to: its events, and its result if the output takes them. -/
abbrev Call (σ α : Type) := List (Event σ) × Except Cause α

/-- Carries out a call. -/
def perform {α : Type} (w : Writer σ) (call : Call σ α) : Writer σ × Except Failure α :=
  match w.sink.perform w.filter call.1 with
  | (sink, filter, true) => (⟨sink, filter⟩, call.2.mapError .graph)
  | (sink, filter, false) => (⟨sink, filter⟩, .error .output)

/-- The lines of a comment. -/
def commentText (text : String) : String :=
  String.ofList ((Text.lines text.toList).flatMap fun line => '#' :: ' ' :: (line ++ ['\n']))

/-- An object by itself: the object and a newline, or nothing if the filter rejects it. -/
def objectCall (w : Setting σ) (state : σ) (r : Ref) : Call σ Unit :=
  let (accepted, state) := w.filter.enter state (w.heap.get r)
  let asked : Event σ := .entered r accepted state
  -- The filter is asked about the root before anything is known about the graph.
  if accepted then
    match Survey.ofRoots w.registry w.heap [r] with
    | .error cause => ([asked], .error cause)
    | .ok survey =>
      let action := w.surveyed survey 0 r ++ .exit w.filter w.heap r ++ .text "\n"
      (asked :: (action { filter := state }).1, .ok ())
  else ([asked], .ok ())

/-- The objects that are directly in a value. -/
def valueRoots : List Value → List Ref
  | [.object r] => [r]
  | [.objects rs] => rs
  | _ => []

/-- A field by itself and its value, and whether there was anything to write. -/
def valueCall (w : Setting σ) (state : σ) (field : FieldSpec) (vs : List Value) : Call σ Bool :=
  let write (asked : List (Event σ)) (state : σ) : Call σ Bool :=
    match Survey.ofRoots w.registry w.heap (valueRoots vs) with
    | .error cause => (asked, .error cause)
    | .ok survey =>
      let action :=
        .text (field.name ++ ": ") ++ w.value (w.surveyed survey) 0 field vs
      (asked ++ (action { filter := state }).1, .ok true)
  match vs with
  | [.object r] =>
    let (accepted, state) := w.filter.enter state (w.heap.get r)
    let asked : Event σ := .entered r accepted state
    if accepted then write [asked] state else ([asked], .ok false)
  | _ => write [] state

/-- A field of an object by itself, and whether there was anything to write. -/
def fieldCall (w : Setting σ) (state : σ) (r : Ref) (name : String) : Call σ Bool :=
  let i := w.heap.get r
  match w.registry.find? i.typeName with
  | none => ([], .error (.unknownType i.typeName))
  | some spec =>
    match spec.find? name with
    | none => ([], .error (.unknownField name i.typeName))
    | some field =>
      match i.fetch? field with
      | none => ([], .ok false)
      | some vs => valueCall w state field vs

/-- Writes a comment. -/
def comment (w : Writer σ) (text : String) : Writer σ × Except Failure Unit :=
  w.perform ([.text (commentText text)], .ok ())

/-- Writes an object with everything below it. -/
def object (w : Writer σ) (setting : Setting σ) (r : Ref) : Writer σ × Except Failure Unit :=
  w.perform (objectCall setting w.filter r)

/-- Writes a field of an object, and tells whether there was anything to write. -/
def field (w : Writer σ) (setting : Setting σ) (r : Ref) (name : String) :
    Writer σ × Except Failure Bool :=
  w.perform (fieldCall setting w.filter r name)

/-- The text that events put out one after another. -/
def textOf (events : List (Event σ)) : String :=
  String.join (events.map Event.shown)

theorem textOf_append (events more : List (Event σ)) :
    textOf (events ++ more) = textOf events ++ textOf more := by
  simp [textOf, String.join_append]

end Writer

/-- The text of an object with everything below it. -/
def objectText? (reg : Registry) (h : Heap) (r : Ref) : Except Cause String :=
  let call := Writer.objectCall { registry := reg, heap := h, filter := .all } () r
  call.2.map fun () => Writer.textOf call.1

end GraphText

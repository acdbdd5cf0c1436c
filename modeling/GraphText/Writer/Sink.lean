import GraphText.Writer.Event

/-!
# Outputs

An output takes bytes, up to a limit if it has one. A text that does not fit is
put out as far as it goes, which may be into the middle of a character, and the
output has failed. Labels are numbered in the order in which they are first put
out.

Events are carried out one by one until the output fails, and what comes after
that has not happened: the filter is then in the state of the last event that
was reached.

## Main definitions

* `Sink`: an output.
* `Sink.write`: putting out a text.
* `Sink.perform`: carrying out events.
-/

namespace GraphText.Writer

/-- An output: what has been put out, how much fits at all, and the labels given so far. -/
structure Sink where
  bytes : ByteArray := .empty
  limit : Option Nat := none
  labelled : List Ref := []

namespace Sink

/-- How much of a text of this many bytes still fits. -/
def room (s : Sink) (size : Nat) : Nat :=
  match s.limit with
  | none => size
  | some limit => min size (limit - s.bytes.size)

/-- Puts out a text as far as it fits, and tells whether all of it did. -/
def write (s : Sink) (text : String) : Sink × Bool :=
  let bytes := text.toByteArray
  -- The part that fits may end inside a character.
  let fits := s.room bytes.size
  ({ s with bytes := s.bytes ++ bytes.extract 0 fits }, fits == bytes.size)

/-- The label of an object, which is new if the object has none yet. -/
def labelOf (s : Sink) (r : Ref) : Sink × String :=
  let labelled := if s.labelled.contains r then s.labelled else s.labelled ++ [r]
  ({ s with labelled }, " # @" ++ toString (labelled.idxOf r + 1))

/-- Carries out events, for a filter in this state, until the output fails: the output, the state of
    the filter, and whether everything was done. -/
def perform {σ : Type} (s : Sink) (state : σ) : List (Event σ) → Sink × σ × Bool
  | [] => (s, state, true)
  | .text text :: rest =>
    match s.write text with
    | (s, true) => perform s state rest
    | (s, false) => (s, state, false)
  | .label r :: rest =>
    let (s, label) := s.labelOf r
    match s.write label with
    | (s, true) => perform s state rest
    | (s, false) => (s, state, false)
  | .entered _ _ state :: rest => perform s state rest
  | .exited _ state :: rest => perform s state rest

end Sink

end GraphText.Writer

import GraphText.Writer.Event
import GraphText.Writer.Survey

/-!
# How graphs are written

An object is written as its type, its name if it has one, and a body with one
line for each field that was set and is not hidden; a body without fields stays
on its line. An object that has been written is written as `USE` and its name.
Scalars stand side by side, the scalars of a list in brackets with commas
between, and every object of a list of objects on a line of its own.

An object that the filter rejects is left out, with the field that holds it or
with its line in the list; a list that loses all its objects is written like an
empty one.

An object is written in full within another only if neither is in the other
already, so the depth of writing is at most the number of objects, and `fuel`
counts it down. The survey provides the names that keep it from running out.

## Main definitions

* `Setting`: what writing depends on.
* `Setting.object`: how an object is written.
* `Setting.value`: how the value of a field is written.
-/

namespace GraphText.Writer

/-- What writing depends on. -/
structure Setting (σ : Type) where
  registry : Registry
  heap : Heap
  filter : Filter σ
  /-- whether every object is labelled by a comment -/
  labels : Bool := false

/-- A string in quotes. -/
def quote (s : String) : String :=
  String.ofList (Text.Quoted.text s.toList)

/-- The blanks that a line at some depth starts with. -/
def indentation (depth : Nat) : String :=
  String.ofList (List.replicate (2 * depth) ' ')

/-- The fields of an object that are written, with their values. -/
def writtenFields (reg : Registry) (i : Instance) : List (FieldSpec × List Value) :=
  (reg.visibleOf i).filterMap fun field => (i.fetch? field).map fun vs => (field, vs)

namespace Setting

variable {σ : Type} (w : Setting σ)

/-- The comment by which an object is told from others, if that is wanted. -/
def label (r : Ref) : Action σ :=
  if w.labels then .label r else .skip

/-- The rest of a list of objects, given how an object is written and whether there has been one.
    The lines of the list are one deeper than the list itself. -/
def elements (object : Ref → Action σ) (depth : Nat) : Bool → List Ref → Action σ
  | true, [] => .text (indentation depth ++ "]")
  | false, [] => .text "[]"
  | started, r :: rest =>
    .ifEntered w.filter w.heap r
      ((if started then .skip else .text "[\n") ++ .text (indentation (depth + 1)) ++ object r ++
        .exit w.filter w.heap r ++ .text ",\n" ++ elements object depth true rest)
      (elements object depth started rest)

/-- The value of a field, given how an object is written at this depth and one deeper. -/
def value (object : Nat → Ref → Action σ) (depth : Nat) (field : FieldSpec) :
    List Value → Action σ
  | [.object r] => object depth r ++ .exit w.filter w.heap r
  | [.objects rs] => w.elements (object (depth + 1)) depth false rs
  | vs =>
    if field.kind.isList then .text ("[" ++ String.intercalate ", " (vs.map Value.text) ++ "]")
    else .text (String.intercalate " " (vs.map Value.text))

/-- What is done about a field, unless it holds an object that the filter rejects. -/
def unlessRejected (vs : List Value) (action : Action σ) : Action σ :=
  match vs with
  | [.object r] => .ifEntered w.filter w.heap r action .skip
  | _ => action

/-- The line of a field at this depth. -/
def fieldLine (object : Nat → Ref → Action σ) (depth : Nat) (field : FieldSpec)
    (vs : List Value) : Action σ :=
  w.unlessRejected vs
    (.text (indentation depth ++ field.name ++ ": ") ++ w.value object depth field vs ++
      .text ",\n")

/-- An object in full, at this depth. -/
def full (object : Nat → Ref → Action σ) (depth : Nat) (r : Ref) (name : Option String) :
    Action σ :=
  let i := w.heap.get r
  let head :=
    match name with
    | some name => i.typeName ++ " " ++ quote name
    | none => i.typeName
  -- An object counts as written from its head on, so that a cycle is closed by name.
  match writtenFields w.registry i with
  | [] => .mark r ++ .text (head ++ " \x7b\x7d") ++ w.label r
  | fields =>
    .mark r ++ .text (head ++ " \x7b") ++ w.label r ++ .text "\n" ++
      .sequence (fields.map fun (field, vs) => w.fieldLine object (depth + 1) field vs) ++
      .text (indentation depth ++ "\x7d")

/-- An object at this depth: in full, or by name if it has been written. -/
def object (names : Ref → Option String) : Nat → Nat → Ref → Action σ
  | 0, _, _ => .skip
  | fuel + 1, depth, r => fun p =>
    -- What is written has been met twice, and so has a name.
    match names r, p.written.contains r with
    | some name, true => (.text ("USE " ++ quote name) : Action σ) p
    | name, _ => w.full (object names fuel) depth r name p

/-- An object that is not inside another, with the names of a survey. -/
def surveyed (s : Survey) : Nat → Ref → Action σ :=
  w.object s.name? (s.order.length + 1)

end Setting

end GraphText.Writer

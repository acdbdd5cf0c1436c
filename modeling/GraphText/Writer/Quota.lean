import GraphText.Writer.Event

/-!
# Filters by type, name and number

A filter that rejects objects of some types or names, objects inside too many
others, and all objects after a number of questions, and keeps a log of what it
was asked and told.

## Main definitions

* `Quota`: what is rejected.
* `Quota.filter`: the filter.
-/

namespace GraphText.Writer

/-- What a filter by number rejects. -/
structure Quota where
  types : List String := []
  names : List String := []
  /-- how many objects may be inside each other -/
  maxDepth : Option Nat := none
  /-- how many questions are answered by what is asked; all after them are answered with no -/
  maxEnters : Option Nat := none

/-- What the filter remembers: the questions, the objects that have been entered and not left, and
    the log. -/
structure Quota.State where
  enters : Nat := 0
  depth : Nat := 0
  log : Array String := #[]

/-- Whether a number is within a limit. -/
def withinLimit (n : Nat) : Option Nat → Bool
  | none => true
  | some limit => n < limit

namespace Quota

/-- Whether an object is rejected for what it is. -/
def rejects (q : Quota) (i : Instance) : Bool :=
  q.types.contains i.typeName ||
    match i.name with
    | some name => q.names.contains name
    | none => false

/-- The filter. The log has a line for every question, marked by the answer, and for every object
    left. -/
def filter (q : Quota) : Filter State where
  enter s i :=
    let accepted :=
      !q.rejects i && withinLimit s.depth q.maxDepth && withinLimit s.enters q.maxEnters
    (accepted,
      { enters := s.enters + 1
        depth := if accepted then s.depth + 1 else s.depth
        log := s.log.push ((if accepted then "+" else "!") ++ i.describe) })
  exit s i := { s with depth := s.depth - 1, log := s.log.push ("-" ++ i.describe) }

end Quota

end GraphText.Writer

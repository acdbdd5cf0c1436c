import GraphText.Path

/-!
# Positions and locations

A position is a line and a column, both counted from one; columns count
characters, and only a newline starts a line. A location is a position in a
named source, which is a file or the text of a string.

## Main definitions

* `Position.after`: where a reader stands behind some characters.
* `Location`: a position in a source.

## Theorems

* `Position.after_append`: standing behind a text in two steps.
-/

namespace GraphText

/-- A line and a column, counted from one. -/
structure Position where
  line : Nat
  column : Nat
  deriving DecidableEq

namespace Position

/-- The first character of a source. -/
def start : Position := ⟨1, 1⟩

/-- The position behind one character. -/
def step (p : Position) (c : Char) : Position :=
  if c = '\n' then ⟨p.line + 1, 1⟩ else ⟨p.line, p.column + 1⟩

/-- The position behind a text. -/
def after (p : Position) (cs : List Char) : Position :=
  cs.foldl step p

@[simp] theorem after_nil (p : Position) : p.after [] = p := rfl

theorem after_append (p : Position) (cs ds : List Char) :
    p.after (cs ++ ds) = (p.after cs).after ds := by
  simp [after]

end Position

/-- A position in a source. -/
structure Location where
  path : Path
  position : Position
  deriving DecidableEq

namespace Location

/-- The name under which text that is not a file appears. -/
def stringSource : Path := ⟨"<string>"⟩

/-- The form in messages, which leaves the column out. -/
def text (l : Location) : String :=
  l.path.text ++ ":" ++ toString l.position.line

end Location

end GraphText

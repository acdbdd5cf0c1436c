import GraphText.Error
import GraphText.Number.Single
import GraphText.Text.Pieces

/-!
# Literals

The texts of scalar values. Which of them may stand bare is a matter of the
grammar; here a literal is a text, wherever it comes from.

## Main definitions

* `Literal.bool`, `Literal.int`, `Literal.uint`, `Literal.float`: the value of a text.
* `Literal.choice`: a text that must be one of some names.
* `Literal.boolText`: how a truth value is written.
-/

namespace GraphText.Literal

/-- A truth value: `t`, `true`, `f` or `false`, in any case. -/
def bool (text : String) : Except Cause Bool :=
  let word := Text.lowered text.toList
  if word = ['t'] ∨ word = ['t', 'r', 'u', 'e'] then .ok true
  else if word = ['f'] ∨ word = ['f', 'a', 'l', 's', 'e'] then .ok false
  else .error (.badLiteral .bool text)

/-- A signed number of 32 bits. -/
def int (text : String) : Except Cause Int32 :=
  match Number.readInt text.toList with
  | some n => .ok n
  | none => .error (.badLiteral .int text)

/-- An unsigned number of 32 bits. -/
def uint (text : String) : Except Cause UInt32 :=
  match Number.readUInt text.toList with
  | some n => .ok n
  | none => .error (.badLiteral .uint text)

/-- A number of single precision. -/
def float (text : String) : Except Cause Number.Single :=
  match Number.Single.read text.toList with
  | some x => .ok x
  | none => .error (.badLiteral .float text)

/-- One of some names. -/
def choice (names : List String) (text : String) : Except Cause String :=
  if names.contains text then .ok text else .error (.unknownChoice text)

/-- The text of a truth value. -/
def boolText (b : Bool) : String :=
  if b then "True" else "False"

end GraphText.Literal

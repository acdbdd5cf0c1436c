import GraphText.Number.Single
import GraphText.Value.Kind
import GraphText.Value.Literal

/-!
# Values

What fields hold. An object is held by reference, so that several fields can
hold the same one.

## Main definitions

* `Ref`: a reference to an object.
* `Value`: a value of a field.
* `Value.refs`: the objects that a value refers to.
* `Value.text`: the form of a scalar in a graph text.
-/

namespace GraphText

/-- A reference to an object: its number in its heap. -/
abbrev Ref := Nat

/-- A value of a field. -/
inductive Value where
  | bool (b : Bool)
  | int (n : Int32)
  | uint (n : UInt32)
  | float (x : Number.Single)
  | string (s : String)
  | object (r : Ref)
  | objects (rs : List Ref)
  deriving DecidableEq

namespace Value

/-- The type of a value. -/
def type : Value → ValueType
  | bool _ => .scalar .bool
  | int _ => .scalar .int
  | uint _ => .scalar .uint
  | float _ => .scalar .float
  | string _ => .scalar .string
  | object _ => .object
  | objects _ => .objectList

/-- The objects that a value refers to, in order. -/
def refs : Value → List Ref
  | object r => [r]
  | objects rs => rs
  | _ => []

/-- The value with every reference replaced. -/
def mapRefs (f : Ref → Ref) : Value → Value
  | object r => object (f r)
  | objects rs => objects (rs.map f)
  | scalar => scalar

/-- The form of a scalar in a graph text. References have no form of their own. -/
def text : Value → String
  | bool b => Literal.boolText b
  | int n => String.ofList (Number.intText n)
  | uint n => String.ofList (Number.uintText n)
  | float x => String.ofList x.text
  | string s => String.ofList (Text.Quoted.text s.toList)
  | object _ => ""
  | objects _ => ""

theorem refs_mapRefs (f : Ref → Ref) (v : Value) : (v.mapRefs f).refs = v.refs.map f := by
  cases v <;> rfl

end Value

end GraphText

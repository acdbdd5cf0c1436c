import GraphText.Table
import GraphText.Value
import GraphText.Value.Flags

/-!
# Fields

The kinds of fields that a type can declare, and what an object keeps for a
field of each kind. Storing checks the values against the kind, the type of
each before their number, and fails without effect. Fetching gives back what
was stored; a flags field keeps bits rather than the text it was given, so what
it gives back is the canonical text of the same bits. A raw field takes
whatever it is given.

## Main definitions

* `FieldKind`, `FieldSpec`: the fields that can be declared.
* `Content`: what an object keeps for a field that was stored.
* `FieldKind.store?`: the content for given values.
* `FieldKind.fetch?`: the values of a content.
-/

namespace GraphText

/-- The kinds of fields. -/
inductive FieldKind where
  | scalar (type : ScalarType)
  /-- a fixed number of scalars -/
  | array (type : ScalarType) (count : Nat)
  /-- any number of scalars -/
  | list (type : ScalarType)
  /-- one of some names -/
  | choice (names : List String)
  | flags (table : FlagTable)
  /-- an object, perhaps of a required type -/
  | object (required : Option String)
  /-- a list of objects, perhaps of a required type -/
  | objects (required : Option String)
  /-- values of any number and type, read as this many values of this type -/
  | raw (type : ValueType) (arity : Nat)
  deriving DecidableEq

/-- What an object keeps for a field. -/
inductive Content where
  | values (vs : List Value)
  | bits (b : UInt32)
  deriving DecidableEq

namespace FieldKind

/-- The type of the values that a graph text gives to the field. -/
def valueType : FieldKind → ValueType
  | scalar type | array type _ | list type => .scalar type
  | choice _ | flags _ => .scalar .string
  | object _ => .object
  | objects _ => .objectList
  | raw type _ => type

/-- How many values a graph text gives to the field without brackets. -/
def arity : FieldKind → Nat
  | array _ count => count
  | raw _ arity => arity
  | _ => 1

/-- Whether the field takes scalars in brackets. -/
def isList : FieldKind → Bool
  | list _ => true
  | _ => false

/-- The type that objects of the field must be of. -/
def required : FieldKind → Option String
  | object type | objects type => type
  | _ => none

/-- Fails at the first value that is not of the wanted type. -/
def checkTypes (field : String) (wanted : ScalarType) : List Value → Except Cause Unit
  | [] => .ok ()
  | v :: vs =>
    if v.type = .scalar wanted then checkTypes field wanted vs
    else .error (.wrongType field wanted v.type)

/-- The text of a single string. -/
def oneString (field : String) (vs : List Value) : Except Cause String := do
  checkTypes field .string vs
  match vs with
  | [.string s] => .ok s
  | _ => .error (.notOneValue field vs.length)

/-- What is kept of values stored in a field of this kind and name. -/
def store? (kind : FieldKind) (field : String) (vs : List Value) : Except Cause Content :=
  match kind with
  | scalar type => do
    checkTypes field type vs
    if vs.length = 1 then .ok (.values vs) else .error (.notOneValue field vs.length)
  | array type count => do
    checkTypes field type vs
    if vs.length = count then .ok (.values vs) else .error (.wrongCount field count vs.length)
  | list type => do
    checkTypes field type vs
    .ok (.values vs)
  | choice names => do
    let name ← oneString field vs >>= Literal.choice names
    .ok (.values [.string name])
  | flags table => do
    let bits ← oneString field vs >>= table.decode
    .ok (.bits bits)
  | object _ =>
    match vs with
    | [.object r] => .ok (.values [.object r])
    | _ => .error (.notOneObject field)
  | objects _ =>
    match vs with
    | [.objects rs] => .ok (.values [.objects rs])
    | _ => .error (.notObjectList field)
  | raw _ _ => .ok (.values vs)

/-- The values of what a field of this kind keeps. -/
def fetch? : FieldKind → Content → Option (List Value)
  | flags table, .bits b => some [.string (table.encode b)]
  | flags _, .values _ => none
  | _, .values vs => some vs
  | _, .bits _ => none

end FieldKind

/-- A declared field. -/
structure FieldSpec where
  name : String
  kind : FieldKind
  /-- left out by the writer -/
  hidden : Bool := false
  deriving DecidableEq

end GraphText

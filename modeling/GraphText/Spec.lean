import GraphText.Heap

/-!
# Object specs

The description of a type: its name, the type it derives from, and its fields
in the order in which they are written. A derived type starts with all the
fields of its base. Deriving copies the fields; the base itself is recorded by
name only, so a description stands on its own and its base may be unknown.

## Main definitions

* `ObjectSpec`: the description of a type.
* `ObjectSpec.derivedFrom`: a description that starts from a base.
* `ObjectSpec.flaw?`: what is wrong with a field list, if anything.
* `ObjectSpec.create`: an object of the type without any field set.
-/

namespace GraphText

/-- The description of a type. -/
structure ObjectSpec where
  typeName : String
  base : Option String := none
  /-- usable as a base only -/
  isAbstract : Bool := false
  fields : List FieldSpec := []
  deriving DecidableEq

namespace FieldSpec

/-- The fields with the last one hidden. -/
def hideLast : List FieldSpec → List FieldSpec
  | [] => []
  | [field] => [{ field with hidden := true }]
  | field :: fields => field :: hideLast fields

end FieldSpec

namespace ObjectSpec

/-- A type that derives from `parent`, with its fields before its own. -/
def derivedFrom (parent : ObjectSpec) (typeName : String) (own : List FieldSpec) : ObjectSpec :=
  { typeName, base := some parent.typeName, fields := parent.fields ++ own }

/-- The field of a name. -/
def find? (spec : ObjectSpec) (name : String) : Option FieldSpec :=
  spec.fields.find? fun field => field.name = name

/-- The fields that are written. -/
def visible (spec : ObjectSpec) : List FieldSpec :=
  spec.fields.filter fun field => !field.hidden

/-- What is wrong with a field behind fields of the names in `seen`. -/
def fieldFlaw? (typeName : String) (seen : List String) (field : FieldSpec) : Option Cause :=
  if seen.contains field.name then some (.repeatedField field.name typeName)
  else if field.kind.arity = 0 then some (.noCount field.name typeName)
  else
    match field.kind.valueType with
    | .scalar _ => none
    | _ => if field.kind.arity ≠ 1 then some (.objectCount field.name typeName) else none

/-- What is wrong with the first wrong field of a list, behind fields of the names in `seen`. -/
def fieldsFlaw? (typeName : String) (seen : List String) : List FieldSpec → Option Cause
  | [] => none
  | field :: fields =>
    match fieldFlaw? typeName seen field with
    | some cause => some cause
    | none => fieldsFlaw? typeName (field.name :: seen) fields

/-- What is wrong with the field list, if anything: names must differ, every field takes a value,
    and a field of objects takes exactly one. -/
def flaw? (spec : ObjectSpec) : Option Cause :=
  fieldsFlaw? spec.typeName [] spec.fields

/-- An object of the type without any field set. -/
def create (spec : ObjectSpec) : Instance :=
  { typeName := spec.typeName }

end ObjectSpec

end GraphText

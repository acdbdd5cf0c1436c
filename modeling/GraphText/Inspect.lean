import GraphText.Registry
import GraphText.Text.Escaped

/-!
# Inspecting types and objects

A form of types and objects for whoever looks for an error in a program: all
that they say about themselves in one line, with strings escaped. What cannot
be shown is hinted at by two dots.

## Main definitions

* `ObjectSpec.inspect`, `Instance.inspect`: the forms.
-/

namespace GraphText

/-- A named record: its name and the forms of its parts. -/
def inspectRecord (name : String) (parts : List (String × String)) : String :=
  let shown := parts.map fun (label, form) => label ++ ": " ++ form ++ ", "
  name ++ " \x7b " ++ String.join shown ++ ".. \x7d"

/-- The form of a string that may be missing. -/
def inspectOption : Option String → String
  | none => "None"
  | some s => "Some(" ++ Text.escaped s ++ ")"

/-- The form of a type of values. -/
def ValueType.inspect : ValueType → String
  | scalar .bool => "Bool"
  | scalar .int => "Int"
  | scalar .uint => "UInt"
  | scalar .float => "Float"
  | scalar .string => "String"
  | object => "Object"
  | objectList => "ObjectList"

/-- The form of a field. -/
def FieldSpec.inspect (field : FieldSpec) : String :=
  inspectRecord "FieldSpec"
    [("name", Text.escaped field.name), ("value_type", field.kind.valueType.inspect),
      ("arity", toString field.kind.arity), ("is_list", toString field.kind.isList),
      ("object_type", inspectOption field.kind.required), ("hidden", toString field.hidden)]

/-- The form of a type. -/
def ObjectSpec.inspect (spec : ObjectSpec) : String :=
  inspectRecord "ObjectSpec"
    [("type_name", Text.escaped spec.typeName), ("base_type", inspectOption spec.base),
      ("is_abstract", toString spec.isAbstract),
      ("fields", "[" ++ String.intercalate ", " (spec.fields.map FieldSpec.inspect) ++ "]")]

/-- The form of an object. -/
def Instance.inspect (i : Instance) : String :=
  inspectRecord "Instance"
    [("type_name", Text.escaped i.typeName), ("name", inspectOption i.name),
      ("is_clone", toString i.isClone)]

end GraphText

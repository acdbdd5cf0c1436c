/-!
# Types of values

A field declares the type of its values: one of five scalar types, an object,
or a list of objects.

## Main definitions

* `ScalarType`, `ValueType`: the types.
* `ValueType.text`: their names in messages.
-/

namespace GraphText

/-- The types of values that are written as one word. -/
inductive ScalarType where
  | bool
  | int
  | uint
  | float
  | string
  deriving DecidableEq

/-- The types of values. -/
inductive ValueType where
  | scalar (type : ScalarType)
  | object
  | objectList
  deriving DecidableEq

/-- The name of a scalar type in messages. -/
def ScalarType.text : ScalarType → String
  | bool => "bool"
  | int => "int"
  | uint => "uint"
  | float => "float"
  | string => "string"

/-- What a word of a scalar type is called when it is wrong. -/
def ScalarType.noun : ScalarType → String
  | bool => "bool"
  | int => "integer"
  | uint => "unsigned integer"
  | float => "float"
  | string => "string"

/-- The name of a type in messages. -/
def ValueType.text : ValueType → String
  | scalar type => type.text
  | object => "object"
  | objectList => "object list"

end GraphText

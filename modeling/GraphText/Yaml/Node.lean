/-!
# YAML nodes

What a YAML document means, as far as options need it: scalars, sequences and
mappings. A scalar without quotes may be a number or stand for nothing, one in
quotes is always a text, so nodes keep them apart.

## Main definitions

* `Node`: a node of a document.
* `Node.text?`: the text of a scalar.
-/

namespace GraphText.Yaml

/-- A node of a document. -/
inductive Node where
  /-- a scalar without quotes -/
  | plain (text : String)
  /-- a scalar in quotes -/
  | quoted (text : String)
  | sequence (items : List Node)
  | mapping (entries : List (Node × Node))

namespace Node

/-- The node that is not written at all. -/
def empty : Node := plain ""

/-- The text of a scalar. -/
def text? : Node → Option String
  | plain text => some text
  | quoted text => some text
  | _ => none

end Node

end GraphText.Yaml

import GraphText.Yaml.Node

/-!
# YAML tokens

The parts that the nodes of a document are put together from. Some are written
as marks; that a collection without brackets begins or ends, and that a key
begins without a mark, is only to be seen from the places of others. What
follows from places is said by tokens of its own, so that places are of no
interest behind them.

## Main definitions

* `Token`: a part of a document.
-/

namespace GraphText.Yaml

/-- A part of a document. -/
inductive Token where
  | documentStart
  | documentEnd
  /-- the beginning of a sequence without brackets -/
  | sequenceStart
  /-- the beginning of a mapping without brackets -/
  | mappingStart
  /-- the end of a collection without brackets -/
  | collectionEnd
  | openSquare
  | closeSquare
  | openCurly
  | closeCurly
  | comma
  /-- the mark before an item of a sequence without brackets -/
  | item
  /-- the beginning of a key -/
  | key
  /-- the colon between a key and its value -/
  | value
  | scalar (node : Node)

end GraphText.Yaml

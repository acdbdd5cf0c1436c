import GraphText.Yaml.Tokens

/-!
# YAML documents

A document is one node. Mappings and sequences without brackets have every
entry on a line of its own, all in one column; what is nested in an entry
stands in a later column, but a sequence may stand in the column of the mapping
that it is nested in. Inside brackets a comma may follow the last item, a key
without a value has an empty one, and a pair in a sequence is a mapping by
itself.

Documents without anchors, tags, directives and block scalars are covered. A
document may begin behind a mark `---` and end before marks `...`; there is no
second one.

## Main definitions

* `Node.ofTokens?`: the node that is put together from tokens.
* `Node.ofDocument?`: the node of a document.
-/

namespace GraphText.Yaml

/-- Whether there is nothing where a node of a collection without brackets may stand. -/
def isLeftOut : List Token → Bool
  | .item :: _ => true
  | .key :: _ => true
  | .value :: _ => true
  | .collectionEnd :: _ => true
  | _ => false

/-- Whether there is nothing where a node inside brackets may stand. -/
def isLeftOutInBrackets : List Token → Bool
  | .value :: _ => true
  | .comma :: _ => true
  | .closeSquare :: _ => true
  | .closeCurly :: _ => true
  | _ => false

mutual

/-- A scalar or a collection in brackets, and what follows it. -/
def bracketedNode : Nat → List Token → Option (Node × List Token)
  | 0, _ => none
  | _ + 1, .scalar node :: ts => some (node, ts)
  | fuel + 1, .openSquare :: ts => (bracketedItems fuel ts).map fun r => (.sequence r.1, r.2)
  | fuel + 1, .openCurly :: ts => (bracketedEntries fuel ts).map fun r => (.mapping r.1, r.2)
  | _, _ => none

/-- The value of a key inside brackets, from before its colon. -/
def bracketedValue : Nat → List Token → Option (Node × List Token)
  | 0, _ => none
  | fuel + 1, .value :: ts =>
    if isLeftOutInBrackets ts then some (.empty, ts) else bracketedNode fuel ts
  | _ + 1, ts => some (.empty, ts)

/-- An item of a sequence. -/
def bracketedItem : Nat → List Token → Option (Node × List Token)
  | 0, _ => none
  | fuel + 1, .key :: ts => do
    let (key, ts) ←
      match ts with
      -- What stands in the place of the key is read as the key.
      | .value :: ts | .comma :: ts | .closeSquare :: ts => some (.empty, ts)
      | _ => bracketedNode fuel ts
    let (value, ts) ← bracketedValue fuel ts
    some (.mapping [(key, value)], ts)
  | fuel + 1, ts => bracketedNode fuel ts

/-- The rest of a sequence. -/
def bracketedItems : Nat → List Token → Option (List Node × List Token)
  | 0, _ => none
  | _ + 1, .closeSquare :: ts => some ([], ts)
  | fuel + 1, ts => do
    let (item, ts) ← bracketedItem fuel ts
    match ts with
    | .comma :: ts => (bracketedItems fuel ts).map fun r => (item :: r.1, r.2)
    | .closeSquare :: ts => some ([item], ts)
    | _ => none

/-- An entry of a mapping. -/
def bracketedEntry : Nat → List Token → Option ((Node × Node) × List Token)
  | 0, _ => none
  | fuel + 1, .key :: ts => do
    let (key, ts) ← if isLeftOutInBrackets ts then some (.empty, ts) else bracketedNode fuel ts
    let (value, ts) ← bracketedValue fuel ts
    some ((key, value), ts)
  | fuel + 1, ts => (bracketedNode fuel ts).map fun r => ((r.1, .empty), r.2)

/-- The rest of a mapping. -/
def bracketedEntries : Nat → List Token → Option (List (Node × Node) × List Token)
  | 0, _ => none
  | _ + 1, .closeCurly :: ts => some ([], ts)
  | fuel + 1, ts => do
    let (entry, ts) ← bracketedEntry fuel ts
    match ts with
    | .comma :: ts => (bracketedEntries fuel ts).map fun r => (entry :: r.1, r.2)
    | .closeCurly :: ts => some ([entry], ts)
    | _ => none

end

mutual

/-- A node, and what follows it. -/
def node : Nat → List Token → Option (Node × List Token)
  | 0, _ => none
  | fuel + 1, .sequenceStart :: ts => do
    match ← items fuel ts with
    | (items, .collectionEnd :: ts) => some (.sequence items, ts)
    | _ => none
  | fuel + 1, .mappingStart :: ts => (entries fuel ts).map fun r => (.mapping r.1, r.2)
  | fuel + 1, ts => bracketedNode fuel ts

/-- A key or a value of a mapping without brackets. A sequence in the column of the mapping has no
    token for its beginning. -/
def entryNode : Nat → List Token → Option (Node × List Token)
  | 0, _ => none
  | fuel + 1, .item :: ts => (items fuel (.item :: ts)).map fun r => (.sequence r.1, r.2)
  | fuel + 1, ts => if isLeftOut ts then some (.empty, ts) else node fuel ts

/-- The items that follow in a sequence without brackets. -/
def items : Nat → List Token → Option (List Node × List Token)
  | 0, _ => none
  | fuel + 1, .item :: ts => do
    let (item, ts) ← if isLeftOut ts then some (.empty, ts) else node fuel ts
    (items fuel ts).map fun r => (item :: r.1, r.2)
  | _ + 1, ts => some ([], ts)

/-- The rest of a mapping without brackets. -/
def entries : Nat → List Token → Option (List (Node × Node) × List Token)
  | 0, _ => none
  | _ + 1, .collectionEnd :: ts => some ([], ts)
  | fuel + 1, .key :: ts => do
    let (key, ts) ← entryNode fuel ts
    let (value, ts) ←
      match ts with
      | .value :: ts => entryNode fuel ts
      | _ => some (.empty, ts)
    (entries fuel ts).map fun r => ((key, value) :: r.1, r.2)
  | _, _ => none

end

/-- A node, and what follows it. From a token to the next one the reading goes at most five calls
    deeper. -/
def nodeOf (ts : List Token) : Option (Node × List Token) :=
  node (5 * ts.length + 5) ts

/-- The node of a document that begins here, from behind its mark, and what follows it. -/
def contents : List Token → Option (Node × List Token)
  | [] => some (.empty, [])
  | .documentStart :: ts => some (.empty, .documentStart :: ts)
  | .documentEnd :: ts => some (.empty, .documentEnd :: ts)
  | ts => nodeOf ts

/-- Whether a token is the mark of the end of a document. -/
def Token.isDocumentEnd : Token → Bool
  | .documentEnd => true
  | _ => false

/-- The node that is put together from tokens. Without any mark the node must be there, unless
    there is nothing at all. -/
def Node.ofTokens? (ts : List Token) : Option Node := do
  let (node, rest) ←
    match ts with
    | [] => some (.empty, [])
    | .documentStart :: ts => contents ts
    | _ => nodeOf ts
  if rest.all Token.isDocumentEnd then some node else none

/-- The node of a document. -/
def Node.ofDocument? (text : String) : Option Node :=
  let cs := text.toList
  if cs.all isPrintable then (tokens? (placed (unified cs))).bind Node.ofTokens? else none

end GraphText.Yaml

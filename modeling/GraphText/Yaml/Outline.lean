import GraphText.Yaml.Place
import GraphText.Yaml.Token

/-!
# Outlines of YAML documents

What is known about a document of which a part has been read: the tokens of
that part, which collections without brackets are open and in which columns,
and which node may still turn out to be a key.

A key needs no mark before it. It is a key because a colon follows it on its
line, at most 1024 characters behind its beginning. So a node that may be one
is a candidate until something else follows. A node in the column of the
mapping that is open there has to be a key.

## Main definitions

* `Candidate`: a node that is a key if a colon follows.
* `Outline`: what is known about a document.
* `Outline.dedent`, `Outline.indent`: the end and the beginning of collections
  without brackets.
* `Outline.offer?`: the beginning of a node that may be a key.
* `Outline.colon?`: what a colon makes of the candidate.
-/

namespace GraphText.Yaml

/-- A node that is a key if a colon follows. -/
structure Candidate where
  /-- its first character -/
  start : Placed
  /-- how many tokens are before it -/
  position : Nat
  /-- whether it would be out of place if it were no key -/
  isRequired : Bool

/-- How far the colon of a key may be behind the beginning of the key. -/
def keyLimit : Nat := 1024

/-- Whether a colon is near enough to be the colon of this key. -/
def Candidate.reaches (k : Candidate) (colon : Placed) : Bool :=
  k.start.line = colon.line && colon.index ≤ k.start.index + keyLimit

/-- What is known about a document of which a part has been read. -/
structure Outline where
  tokens : Array Token
  /-- the columns of the open collections without brackets, the innermost first -/
  columns : List Nat
  candidate : Option Candidate
  /-- the candidates that the open brackets interrupt, the innermost first -/
  interrupted : List (Option Candidate)
  /-- whether a key may begin at the next token -/
  keyAllowed : Bool

namespace Outline

/-- The outline of a document of which nothing has been read. -/
def start : Outline := ⟨#[], [], none, [], true⟩

/-- Whether brackets are open. Places have no meaning inside them. -/
def inBrackets (o : Outline) : Bool :=
  !o.interrupted.isEmpty

/-- The least column of what is nested in the innermost collection without brackets. -/
def indentation (o : Outline) : Nat :=
  match o.columns with
  | [] => 0
  | column :: _ => column + 1

/-- The outline with one more token. -/
def push (o : Outline) (token : Token) : Outline :=
  { o with tokens := o.tokens.push token }

/-- The outline with another token between those that it has. -/
def insert (o : Outline) (position : Nat) (token : Token) : Outline :=
  { o with tokens := o.tokens.insertIdxIfInBounds position token }

/-- The outline without the open collections from this column on. -/
def dedent (o : Outline) (column : Nat) : Outline :=
  if o.inBrackets then o
  else
    let closed := o.columns.takeWhile (column ≤ ·)
    { o with
      tokens := o.tokens ++ closed.map fun _ => Token.collectionEnd
      columns := o.columns.drop closed.length }

/-- The outline with an open collection in this column. If there is one already, it goes on. -/
def indent (o : Outline) (column position : Nat) (token : Token) : Outline :=
  if o.inBrackets || column < o.indentation then o
  else { o.insert position token with columns := column :: o.columns }

/-- The outline without a candidate, unless that has to be a key. -/
def forget? (o : Outline) : Option Outline :=
  if o.candidate.any Candidate.isRequired then none else some { o with candidate := none }

/-- The outline before a node that may be a key. -/
def offer? (o : Outline) (c : Placed) : Option Outline :=
  if o.keyAllowed then do
    let o ← o.forget?
    let isRequired := !o.inBrackets && o.columns.head? == some c.column
    some { o with candidate := some ⟨c, o.tokens.size, isRequired⟩ }
  else some o

/-- The outline behind a scalar. If a line has ended behind it, a key may follow. -/
def scalar (o : Outline) (node : Node) (endsLine : Bool) : Outline :=
  { o.push (.scalar node) with keyAllowed := endsLine }

/-- The outline behind a mark between documents. -/
def documentMark? (o : Outline) (token : Token) : Option Outline := do
  let o ← (o.dedent 0).forget?
  some { o.push token with keyAllowed := false }

/-- The outline behind an opening bracket. -/
def openBracket? (o : Outline) (c : Placed) (token : Token) : Option Outline := do
  let o ← o.offer? c
  some { o.push token with
    candidate := none, interrupted := o.candidate :: o.interrupted, keyAllowed := true }

/-- The outline behind a closing bracket. -/
def closeBracket? (o : Outline) (token : Token) : Option Outline := do
  let o ← o.forget?
  some { o.push token with
    candidate := o.interrupted.head?.join, interrupted := o.interrupted.tail, keyAllowed := false }

/-- The outline behind a comma between brackets. -/
def comma? (o : Outline) : Option Outline := do
  let o ← o.forget?
  some { o.push .comma with keyAllowed := true }

/-- The outline behind the mark before an item. Without brackets an item begins where a key may. -/
def dash? (o : Outline) (c : Placed) : Option Outline := do
  if !o.inBrackets && !o.keyAllowed then none
  else
    let o ← (o.indent c.column o.tokens.size .sequenceStart).forget?
    some { o.push .item with keyAllowed := true }

/-- The outline behind the mark before a key. -/
def questionMark? (o : Outline) (c : Placed) : Option Outline := do
  if !o.inBrackets && !o.keyAllowed then none
  else
    let o ← (o.indent c.column o.tokens.size .mappingStart).forget?
    some { o.push .key with keyAllowed := !o.inBrackets }

/-- The outline behind the colon of a key that has no mark before it. -/
def colonOf (o : Outline) (k : Candidate) : Outline :=
  let o := (o.insert k.position .key).indent k.start.column k.position .mappingStart
  { o.push .value with candidate := none, keyAllowed := false }

/-- The outline behind a colon with no candidate before it. -/
def colonAlone? (o : Outline) (c : Placed) : Option Outline :=
  if !o.inBrackets && !o.keyAllowed then none
  else
    let o := o.indent c.column o.tokens.size .mappingStart
    some { o.push .value with candidate := none, keyAllowed := !o.inBrackets }

/-- The outline behind a colon. -/
def colon? (o : Outline) (c : Placed) : Option Outline :=
  match o.candidate with
  | none => o.colonAlone? c
  | some k =>
    if k.reaches c then some (o.colonOf k)
    else if k.isRequired then none
    else o.colonAlone? c

/-- The tokens of a document that ends here. -/
def finish? (o : Outline) : Option (List Token) :=
  (o.dedent 0).forget?.map fun o => o.tokens.toList

end Outline

end GraphText.Yaml

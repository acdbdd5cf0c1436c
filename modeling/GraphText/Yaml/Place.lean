/-!
# Places in YAML documents

Columns have a meaning in YAML: they say what belongs to what. So the
characters of a document are read together with their places. A document is
read after its line ends have been made newlines. The separators of lines and
of paragraphs end a line too, but they stay what they are, since a scalar that
holds one keeps it.

## Main definitions

* `Placed`: a character and its place.
* `placed`: the characters of a text at their places.
* `startsDocumentMark`: whether a line consists of one of the marks between
  documents, or starts with it.
-/

namespace GraphText.Yaml

/-- Whether a document may hold this character. -/
def isPrintable (c : Char) : Bool :=
  let n := c.toNat
  n == 0x09 || n == 0x0A || n == 0x0D || (0x20 ≤ n && n ≤ 0x7E) || n == 0x85 ||
    (0xA0 ≤ n && n ≤ 0xFFFD) || 0x10000 ≤ n

/-- A text with a newline for every line end that is no separator. -/
def unified : List Char → List Char
  | '\r' :: '\n' :: cs => '\n' :: unified cs
  | c :: cs => (if c = '\r' ∨ c = '\u0085' then '\n' else c) :: unified cs
  | [] => []

/-- Whether a character ends a line. -/
def isLineEnd (c : Char) : Bool :=
  c = '\n' || c = '\u2028' || c = '\u2029'

/-- Whether a character is a blank or ends a line. -/
def isGap (c : Char) : Bool :=
  c = ' ' || c = '\t' || isLineEnd c

/-- A character and its place: how many characters are before it, how many lines, and how many
    characters of its own line. -/
structure Placed where
  char : Char
  index : Nat
  line : Nat
  column : Nat

/-- The characters of a text that starts at a place. -/
def placedFrom (index line column : Nat) : List Char → List Placed
  | [] => []
  | c :: cs =>
    ⟨c, index, line, column⟩ ::
      if isLineEnd c then placedFrom (index + 1) (line + 1) 0 cs
      else placedFrom (index + 1) line (column + 1) cs

/-- The characters of a text at their places. -/
def placed (cs : List Char) : List Placed :=
  placedFrom 0 0 0 cs

/-- Whether nothing, or something that is not part of a word, comes next. -/
def atGap : List Placed → Bool
  | [] => true
  | c :: _ => isGap c.char

/-- Whether a line starts here, and with this mark and no longer word. -/
def startsMark (mark : Char) : List Placed → Bool
  | a :: b :: c :: cs =>
    a.column = 0 && a.char = mark && b.char = mark && c.char = mark && atGap cs
  | _ => false

/-- Whether a line starts here, and with a mark that a document starts or ends with. -/
def startsDocumentMark (cs : List Placed) : Bool :=
  startsMark '-' cs || startsMark '.' cs

end GraphText.Yaml

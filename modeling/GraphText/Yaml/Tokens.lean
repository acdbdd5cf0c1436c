import GraphText.Yaml.Outline
import GraphText.Yaml.Scalar

/-!
# The tokens of a YAML document

Tokens have blanks, line ends and comments between them. Tabs are no
indentation: they count as blanks inside brackets and where no key may begin.
A line may start with the mark of an encoding, which has no meaning there but
takes a column.

## Main definitions

* `skip`: what follows blanks and comments.
* `token?`: the outline behind one token.
* `tokens?`: the tokens of a text.
-/

namespace GraphText.Yaml

/-- The mark of an encoding. -/
def encodingMark : Char := '\ufeff'

/-- What follows blanks and comments, and whether a key may begin there: always on another line
    outside brackets. -/
def skip (brackets : Bool) : (inComment keyAllowed : Bool) → List Placed → Bool × List Placed
  | _, keyAllowed, [] => (keyAllowed, [])
  | inComment, keyAllowed, c :: cs =>
    if isLineEnd c.char then skip brackets false (keyAllowed || !brackets) cs
    else if inComment || c.char = ' ' || (c.char = '\t' && (brackets || !keyAllowed)) ||
        (c.char = encodingMark && c.column = 0) then
      skip brackets inComment keyAllowed cs
    else if c.char = '#' then skip brackets true keyAllowed cs
    else (keyAllowed, c :: cs)

/-- The characters that no token starts with: they are blanks, or they would start something that
    options have no need for. -/
def isReserved (c : Char) : Bool :=
  isGap c || ['#', '&', '*', '!', '|', '>', '%', '@', '\x60'].contains c

/-- The outline behind the scalar in quotes that starts at a character. -/
def quotedToken? (o : Outline) (c : Placed) (cs : List Placed) :
    Option (Outline × List Placed) := do
  let o ← o.offer? c
  let (text, rest) ← if c.char = '"' then double .none cs else single .none cs
  some (o.scalar (.quoted (String.ofList text)) false, rest)

/-- The outline behind the plain scalar that starts at a character. -/
def plainToken? (o : Outline) (c : Placed) (cs : List Placed) :
    Option (Outline × List Placed) := do
  let o ← o.offer? c
  let (text, gap, rest) ← plain o.inBrackets o.indentation .none (c :: cs)
  some (o.scalar (.plain (String.ofList text)) gap.endsLine, rest)

/-- The outline behind the token that starts at a character. -/
def token? (o : Outline) (c : Placed) (cs : List Placed) : Option (Outline × List Placed) :=
  let o := o.dedent (c.column + 1)
  -- Inside brackets the indicators need no gap behind them.
  let isIndicator := o.inBrackets || atGap cs
  if startsMark '-' (c :: cs) then (o.documentMark? .documentStart).map fun o => (o, cs.drop 2)
  else if startsMark '.' (c :: cs) then (o.documentMark? .documentEnd).map fun o => (o, cs.drop 2)
  else if c.char = '[' then (o.openBracket? c .openSquare).map fun o => (o, cs)
  else if c.char = '\x7b' then (o.openBracket? c .openCurly).map fun o => (o, cs)
  else if c.char = ']' then (o.closeBracket? .closeSquare).map fun o => (o, cs)
  else if c.char = '\x7d' then (o.closeBracket? .closeCurly).map fun o => (o, cs)
  else if c.char = ',' then o.comma?.map fun o => (o, cs)
  else if c.char = '-' ∧ atGap cs then (o.dash? c).map fun o => (o, cs)
  else if c.char = '?' ∧ isIndicator then (o.questionMark? c).map fun o => (o, cs)
  else if c.char = ':' ∧ isIndicator then (o.colon? c).map fun o => (o, cs)
  else if c.char = '\'' ∨ c.char = '"' then quotedToken? o c cs
  else if isReserved c.char then none
  else plainToken? o c cs

/-- The tokens of a text, at most so many of them in the part that is left. -/
def tokensFrom? : Nat → Outline → List Placed → Option (List Token)
  | 0, _, _ => none
  | limit + 1, o, cs =>
    match skip o.inBrackets false o.keyAllowed cs with
    | (_, []) => o.finish?
    | (keyAllowed, c :: cs) => do
      let (o, rest) ← token? { o with keyAllowed } c cs
      tokensFrom? limit o rest

/-- The tokens of a text. None of them is without characters, so there are no more of them. -/
def tokens? (cs : List Placed) : Option (List Token) :=
  tokensFrom? (cs.length + 1) .start cs

end GraphText.Yaml

import GraphText.Number.Digits
import GraphText.Yaml.Place

/-!
# YAML scalars

A scalar stands in quotes or is plain. Between single quotes a quote is written
twice and nothing else has a meaning of its own; between double quotes a
backslash starts an escape. A plain scalar ends before a `:` that ends a word,
before a comment, and inside brackets before a comma or bracket.

Every scalar may go on over several lines, but not over a mark between
documents. What stands between two words is a gap. If it has line ends the
blanks around them are lost, the first newline is lost too, and a gap of one
newline alone counts as a blank.

## Main definitions

* `Gap`: what stands between two words of a scalar.
* `single`, `double`: the rest of a scalar in quotes.
* `plain`: the rest of a plain scalar.
-/

namespace GraphText.Yaml

/-- What stands between two words of a scalar. -/
inductive Gap where
  | blanks (cs : List Char)
  /-- the first line end, unless it is escaped, and the others -/
  | lineEnds (first : Option Char) (others : List Char)

namespace Gap

/-- No gap. -/
def none : Gap := blanks []

/-- A gap with one more blank or line end. -/
def push : Gap → Char → Gap
  | blanks cs, c => if isLineEnd c then lineEnds (some c) [] else blanks (cs ++ [c])
  | lineEnds first others, c => lineEnds first (if isLineEnd c then others ++ [c] else others)

/-- What a gap means. -/
def text : Gap → List Char
  | blanks cs => cs
  | lineEnds (some '\n') [] => [' ']
  | lineEnds (some '\n') others => others
  | lineEnds first others => first.toList ++ others

/-- Whether there is a gap at all. -/
def isSome : Gap → Bool
  | blanks cs => !cs.isEmpty
  | lineEnds _ _ => true

/-- Whether a line has ended in a gap. -/
def endsLine : Gap → Bool
  | blanks _ => false
  | lineEnds _ _ => true

end Gap

/-- The rest of a scalar in single quotes, after a gap, and what follows it. -/
def single (gap : Gap) : List Placed → Option (List Char × List Placed)
  | [] => none
  | [c] => if c.char = '\'' then some (gap.text, []) else none
  | c :: d :: cs =>
    if startsDocumentMark (c :: d :: cs) then none
    else if c.char = '\'' then
      if d.char = '\'' then (single .none cs).map fun r => (gap.text ++ '\'' :: r.1, r.2)
      else some (gap.text, d :: cs)
    else if isGap c.char then single (gap.push c.char) (d :: cs)
    else (single .none (d :: cs)).map fun r => (gap.text ++ c.char :: r.1, r.2)

/-- The character that an escape of one letter means. -/
def escapeMeaning? : Char → Option Char
  | '0' => some '\x00'
  | 'a' => some '\x07'
  | 'b' => some '\x08'
  | 't' => some '\t'
  | '\t' => some '\t'
  | 'n' => some '\n'
  | 'v' => some '\x0b'
  | 'f' => some '\x0c'
  | 'r' => some '\r'
  | 'e' => some '\x1b'
  | ' ' => some ' '
  | '"' => some '"'
  | '/' => some '/'
  | '\\' => some '\\'
  | 'N' => some '\u0085'
  | '_' => some '\u00a0'
  | 'L' => some '\u2028'
  | 'P' => some '\u2029'
  | _ => none

/-- The character of a code point in hexadecimal. -/
def codePoint? (digits : List Placed) : Option Char := do
  let n ← Number.natural? 16 (digits.map Placed.char)
  if n.isValidChar then some (Char.ofNat n) else none

/-- How many hexadecimal digits an escape has, if it has any. -/
def escapeDigits? : Char → Option Nat
  | 'x' => some 2
  | 'u' => some 4
  | 'U' => some 8
  | _ => none

/-- The character that an escape means, and what follows it. -/
def escape : List Placed → Option (Char × List Placed)
  | [] => none
  | c :: cs =>
    match escapeDigits? c.char with
    | some n => (codePoint? (cs.take n)).map fun meaning => (meaning, cs.drop n)
    | none => (escapeMeaning? c.char).map fun meaning => (meaning, cs)

theorem escape_length {cs rest : List Placed} {c : Char} (h : escape cs = some (c, rest)) :
    rest.length < cs.length := by
  unfold escape at h
  split at h
  · cases h
  · split at h
    all_goals
      simp only [Option.map_eq_some_iff, Prod.mk.injEq] at h
      obtain ⟨d, -, -, rfl⟩ := h
      simp only [List.length_cons, List.length_drop]
      omega

/-- The rest of a scalar in double quotes, after a gap, and what follows it. -/
def double (gap : Gap) (cs : List Placed) : Option (List Char × List Placed) :=
  match cs with
  | [] => none
  | c :: cs =>
    if startsDocumentMark (c :: cs) then none
    else if c.char = '"' then some (gap.text, cs)
    else if isGap c.char then double (gap.push c.char) cs
    else if c.char = '\\' then
      match cs with
      | [] => none
      | d :: ds =>
        if isLineEnd d.char then
          (double (.lineEnds none []) ds).map fun r => (gap.text ++ r.1, r.2)
        else
          match _meaning : escape (d :: ds) with
          | none => none
          | some (c, rest) => (double .none rest).map fun r => (gap.text ++ c :: r.1, r.2)
    else (double .none cs).map fun r => (gap.text ++ c.char :: r.1, r.2)
termination_by cs.length
decreasing_by
  all_goals simp only [List.length_cons]
  all_goals first
    | omega
    | exact Nat.lt_succ_of_lt (escape_length _meaning)

/-- The characters that have a meaning inside brackets. -/
def isBracketMark (c : Char) : Bool :=
  [',', '[', ']', '\x7b', '\x7d'].contains c

/-- Whether a plain scalar ends at this character wherever it stands. -/
def endsPlain (brackets : Bool) (c : Char) (cs : List Placed) : Bool :=
  (c = ':' && atGap cs) || (brackets && isBracketMark c)

/-- Whether a plain scalar ends at this character because it is behind a gap. A line that goes on
    with the scalar is not before the scalar's indentation. -/
def endsPlainBehindGap (brackets : Bool) (indentation : Nat) (c : Placed)
    (cs : List Placed) : Bool :=
  c.char = '#' || startsDocumentMark (c :: cs) || (!brackets && c.column < indentation)

/-- Whether a colon stands where it would have to be both inside and behind a plain scalar. -/
def isBadColon (brackets : Bool) (c : Char) : List Placed → Bool
  | d :: _ => brackets && c = ':' && (isBracketMark d.char || d.char = '?')
  | [] => false

/-- The rest of a plain scalar, after a gap, with the gap it ends with and what follows. Its
    indentation is the least column of its other lines. Before it no line may have a tab. -/
def plain (brackets : Bool) (indentation : Nat) (gap : Gap) :
    List Placed → Option (List Char × Gap × List Placed)
  | [] => some ([], gap, [])
  | c :: cs =>
    if isGap c.char then
      if c.char = '\t' ∧ gap.endsLine ∧ c.column < indentation then none
      else plain brackets indentation (gap.push c.char) cs
    else if gap.isSome && endsPlainBehindGap brackets indentation c cs then
      some ([], gap, c :: cs)
    else if isBadColon brackets c.char cs then none
    else if endsPlain brackets c.char cs then some ([], gap, c :: cs)
    else
      (plain brackets indentation .none cs).map fun r => (gap.text ++ c.char :: r.1, r.2)

end GraphText.Yaml

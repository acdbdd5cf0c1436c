import GraphText.Token
import GraphText.Text.Quoted

/-!
# Reading tokens

A cursor is the unread part of a text and the position of its first character.
Reading a token skips blanks and comments first. A comment runs from `#` to
the end of its line; a carriage return inside it ends the line only together
with a newline, and a `#` whose line meets a lone carriage return starts no
comment.

Everything here is a function from characters to what was taken and what is
left, so that nothing can be lost between two tokens. A token that cannot be
read leaves the cursor at its first character, and reading again fails again.

## Main definitions

* `Trivia.leading`: the blanks and comments that a text starts with.
* `Lexeme.read`: the word that a text starts with, and how many characters it takes.
* `Cursor.next`: the next token.
* `Cursor.fetch`: the next token or its flaw, and where fetching goes on.
* `Cursor.tokens`: all tokens up to the end.

## Theorems

* `Cursor.leading_append_tokenStart`: a token starts behind the blanks and comments before it.
* `Cursor.next_eq_ok_iff`, `Cursor.next_eq_error_iff`: what the next token is made of.
* `Cursor.next_rest_lt`: every token but the end takes a character.
-/

namespace GraphText

namespace Trivia

/-- The characters between tokens. -/
def isSpace (c : Char) : Bool :=
  c = ' ' || c = '\t' || c = '\r' || c = '\n'

/-- Whether a comment may run on over this character. -/
def isComment (c : Char) : Bool :=
  c ≠ '\r' && c ≠ '\n'

/-- Whether the text behind a `#` ends its line properly: not with a lone carriage return. -/
def closesComment (cs : List Char) : Bool :=
  match cs.dropWhile isComment with
  | '\r' :: '\n' :: _ => true
  | '\r' :: _ => false
  | _ => true

/-- The blanks and comments that a text starts with. Inside a comment, a line end is a blank again,
    because `closesComment` was asked at its `#`. -/
def leading (inComment : Bool) : List Char → List Char
  | [] => []
  | c :: cs =>
    if isSpace c then c :: leading (inComment && isComment c) cs
    else if inComment then c :: leading true cs
    -- A `#` whose line ends badly is a word that no rule accepts.
    else if c = '#' ∧ closesComment cs then c :: leading true cs
    else []

theorem leading_isPrefix (inComment : Bool) (cs : List Char) : leading inComment cs <+: cs := by
  induction cs generalizing inComment with
  | nil => simp [leading]
  | cons c cs ih =>
    rw [leading]
    repeat' split
    all_goals simp [List.cons_prefix_cons, ih]

end Trivia

namespace Lexeme

/-- The characters that a name may start with. -/
def isNameStart (c : Char) : Bool :=
  c.isAlpha || c = '_'

/-- The characters that a name may hold. -/
def isNameRest (c : Char) : Bool :=
  c.isAlphanum || c = '_'

/-- The characters that a number may start with. -/
def isNumberStart (c : Char) : Bool :=
  c.isDigit || c = '+' || c = '-' || c = '.'

/-- The characters that a number may hold. -/
def isNumberRest (c : Char) : Bool :=
  c.isAlphanum || c = '+' || c = '-' || c = '.'

/-- The characters that are words by themselves. -/
def isPunctuation (c : Char) : Bool :=
  ['\x7b', '\x7d', '[', ']', ':', ',', '<', '>', ';', '$'].contains c

/-- The word that a text starts with, and how many characters it takes. -/
def read : List Char → Except Text.Quoted.Flaw (Lexeme × Nat)
  | [] => .ok (.eof, 0)
  | c :: cs =>
    if c = '"' then
      (Text.Quoted.read cs).map fun r => (.quoted (String.ofList r.1), Text.Quoted.width cs + 1)
    else if isNameStart c then
      let word := c :: cs.takeWhile isNameRest
      .ok (.name (String.ofList word), word.length)
    else if isNumberStart c then
      let word := c :: cs.takeWhile isNumberRest
      .ok (.number (String.ofList word), word.length)
    else if isPunctuation c then .ok (.punct c, 1)
    else .ok (.unknown c, 1)

/-- A text that is not empty starts with a word that takes a character. -/
theorem width_pos_of_read {cs : List Char} {l : Lexeme} {n : Nat} (h : read cs = .ok (l, n))
    (hne : cs ≠ []) : 0 < n := by
  cases cs with
  | nil => exact absurd rfl hne
  | cons c cs =>
    rw [read] at h
    split at h
    · cases hr : Text.Quoted.read cs with
      | error f => simp [hr, Except.map] at h
      | ok r =>
        simp only [hr, Except.map, Except.ok.injEq, Prod.mk.injEq] at h
        omega
    · repeat' split at h
      all_goals
        simp only [Except.ok.injEq, Prod.mk.injEq, List.length_cons] at h
        omega

/-- Only the end of the text is the end. -/
theorem eq_nil_of_read_eof {cs : List Char} {n : Nat} (h : read cs = .ok (.eof, n)) : cs = [] := by
  cases cs with
  | nil => rfl
  | cons c cs =>
    rw [read] at h
    split at h
    · cases hr : Text.Quoted.read cs <;> simp [hr, Except.map] at h
    · repeat' split at h
      all_goals simp at h

end Lexeme

/-- The unread part of a text and the position of its first character. -/
structure Cursor where
  rest : List Char
  position : Position
  deriving DecidableEq

namespace Cursor

/-- The beginning of a text. -/
def ofText (text : String) : Cursor := ⟨text.toList, .start⟩

/-- The cursor behind this many characters. -/
def advance (c : Cursor) (n : Nat) : Cursor :=
  ⟨c.rest.drop n, c.position.after (c.rest.take n)⟩

/-- The cursor behind blanks and comments, where the next token starts. -/
def tokenStart (c : Cursor) : Cursor :=
  c.advance (Trivia.leading false c.rest).length

/-- The next token and the cursor behind it. At the end of the text that token is the end, again and
    again. A flaw belongs to the token that starts at `c.tokenStart`. -/
def next (c : Cursor) : Except Text.Quoted.Flaw (Token × Cursor) :=
  let start := c.tokenStart
  (Lexeme.read start.rest).map fun r => (⟨r.1, start.position⟩, start.advance r.2)

/-- Fetches the next token: what is found, and the cursor for fetching again. A token that cannot be
    read is left where it is, and its place goes with the flaw. -/
def fetch (c : Cursor) : Except (Text.Quoted.Flaw × Position) Token × Cursor :=
  match c.next with
  | .ok (token, after) => (.ok token, after)
  | .error flaw => (.error (flaw, c.tokenStart.position), c.tokenStart)

theorem leading_append_tokenStart (c : Cursor) :
    Trivia.leading false c.rest ++ c.tokenStart.rest = c.rest :=
  List.prefix_iff_eq_append.1 (Trivia.leading_isPrefix false c.rest)

theorem rest_advance_le (c : Cursor) (n : Nat) : (c.advance n).rest.length ≤ c.rest.length := by
  simp [advance]

/-- What the next token is made of. -/
theorem next_eq_ok_iff {c d : Cursor} {t : Token} :
    c.next = .ok (t, d) ↔
      ∃ n, Lexeme.read c.tokenStart.rest = .ok (t.lexeme, n) ∧ t.position = c.tokenStart.position ∧
        d = c.tokenStart.advance n := by
  unfold next
  cases hl : Lexeme.read c.tokenStart.rest with
  | error f => simp [Except.map, hl]
  | ok r =>
    obtain ⟨l, n⟩ := r
    simp only [hl, Except.map, Except.ok.injEq, Prod.mk.injEq]
    constructor
    · rintro ⟨rfl, rfl⟩
      exact ⟨n, ⟨rfl, rfl⟩, rfl, rfl⟩
    · rintro ⟨m, ⟨hl, rfl⟩, hp, rfl⟩
      refine ⟨?_, rfl⟩
      cases t
      simp_all

/-- A token is flawed if the word is that starts behind the blanks and comments. -/
theorem next_eq_error_iff {c : Cursor} {flaw : Text.Quoted.Flaw} :
    c.next = .error flaw ↔ Lexeme.read c.tokenStart.rest = .error flaw := by
  unfold next
  cases hl : Lexeme.read c.tokenStart.rest <;> simp [Except.map, hl]

theorem fetch_eq_ok_iff {c d : Cursor} {t : Token} :
    c.fetch = (.ok t, d) ↔ c.next = .ok (t, d) := by
  rw [fetch]
  cases c.next <;> simp [Prod.ext_iff]

theorem fetch_eq_error_iff {c d : Cursor} {flaw : Text.Quoted.Flaw} {p : Position} :
    c.fetch = (.error (flaw, p), d) ↔
      c.next = .error flaw ∧ p = c.tokenStart.position ∧ d = c.tokenStart := by
  rw [fetch]
  cases c.next <;> simp [and_assoc, eq_comm]

theorem next_rest_le {c d : Cursor} {t : Token} (h : c.next = .ok (t, d)) :
    d.rest.length ≤ c.rest.length := by
  obtain ⟨n, -, -, rfl⟩ := next_eq_ok_iff.1 h
  exact Nat.le_trans (rest_advance_le _ _) (rest_advance_le _ _)

/-- Every token but the end takes at least one character. -/
theorem next_rest_lt {c d : Cursor} {t : Token} (h : c.next = .ok (t, d))
    (hne : t.lexeme ≠ .eof) : d.rest.length < c.rest.length := by
  obtain ⟨n, hread, -, rfl⟩ := next_eq_ok_iff.1 h
  have hrest : c.tokenStart.rest ≠ [] := by
    intro hnil
    rw [hnil, Lexeme.read, Except.ok.injEq, Prod.mk.injEq] at hread
    exact hne hread.1.symm
  have hpos := Lexeme.width_pos_of_read hread hrest
  have hlen := List.length_pos_iff.2 hrest
  have hle : c.tokenStart.rest.length ≤ c.rest.length := rest_advance_le _ _
  simp only [advance, List.length_drop] at *
  omega

/-- All tokens up to the end, or the flaw and the position of the first that cannot be read. -/
def tokens (c : Cursor) : Except (Text.Quoted.Flaw × Position) (List Token) :=
  match _read : c.next with
  | .error flaw => .error (flaw, c.tokenStart.position)
  | .ok (token, after) =>
    if _more : token.lexeme = .eof then .ok []
    else (tokens after).map (token :: ·)
termination_by c.rest.length
decreasing_by exact next_rest_lt _read _more

end Cursor

end GraphText

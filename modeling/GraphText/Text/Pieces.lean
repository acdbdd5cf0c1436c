/-!
# Pieces of a text

A path, a list of flag names and a comment are all cut at one separating
character. Empty pieces are kept, because whether one means anything (an empty
flag name does, an empty path component does not) is up to the reader of the
pieces. Texts are lists of characters here, as everywhere below the level of
whole names and messages.

## Main definitions

* `pieces`: what stands between the separators.
* `joined`: the pieces with the separator put back.
* `lines`: the lines of a text, line ends removed.
* `trimmed`: a text without blanks at its ends.

## Theorems

* `pieces_ne_nil`: there is always a piece.
* `joined_pieces`: cutting loses nothing.
-/

namespace GraphText.Text

/-- What stands between the occurrences of `sep`: one piece more than there are separators. -/
def pieces (sep : Char) : List Char → List (List Char)
  | [] => [[]]
  | c :: cs =>
    if c = sep then [] :: pieces sep cs
    else
      match pieces sep cs with
      | [] => [[c]]
      | p :: ps => (c :: p) :: ps

/-- The pieces one after the other, with `sep` between neighbours. -/
def joined (sep : Char) : List (List Char) → List Char
  | [] => []
  | [p] => p
  | p :: q :: ps => p ++ sep :: joined sep (q :: ps)

theorem pieces_ne_nil (sep : Char) (cs : List Char) : pieces sep cs ≠ [] := by
  cases cs with
  | nil => simp [pieces]
  | cons c cs =>
    rw [pieces]
    split
    · simp
    · split <;> simp

/-- Cutting loses nothing: the pieces put together again are the text. -/
theorem joined_pieces (sep : Char) (cs : List Char) : joined sep (pieces sep cs) = cs := by
  induction cs with
  | nil => rfl
  | cons c cs ih =>
    rw [pieces]
    cases h : pieces sep cs with
    | nil => exact absurd h (pieces_ne_nil sep cs)
    | cons p ps =>
      rw [h] at ih
      by_cases hc : c = sep
      · simp [hc, joined, ih]
      · cases ps with
        | nil => simpa [hc, joined] using ih
        | cons q qs => simpa [hc, joined] using ih

/-- A line without the carriage return of its line end. -/
def withoutReturn (line : List Char) : List Char :=
  if line.getLast? = some '\r' then line.dropLast else line

/-- The lines of a text. A line ends at a newline, together with one carriage return right before
    it; what follows the last newline is a line only if it is not empty, and keeps its returns. -/
def lines (cs : List Char) : List (List Char) :=
  let all := pieces '\n' cs
  let last := all.getLastD []
  all.dropLast.map withoutReturn ++ (if last = [] then [] else [last])

/-- The white space characters of Unicode. -/
def isBlank (c : Char) : Bool :=
  let n := c.toNat
  (9 ≤ n && n ≤ 13) || n == 0x20 || n == 0x85 || n == 0xA0 || n == 0x1680 ||
    (0x2000 ≤ n && n ≤ 0x200A) || n == 0x2028 || n == 0x2029 || n == 0x202F ||
    n == 0x205F || n == 0x3000

/-- A text without the blanks before its first and after its last other character. -/
def trimmed (cs : List Char) : List Char :=
  ((cs.dropWhile isBlank).reverse.dropWhile isBlank).reverse

/-- The ASCII lower case of a text. -/
def lowered (cs : List Char) : List Char :=
  cs.map Char.toLower

end GraphText.Text

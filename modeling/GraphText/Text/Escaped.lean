import GraphText.Text.Unshown

/-!
# Escaped strings

A string between quotes with every character visible, for messages to
programmers. This form is never read back. It is not the form of strings in
graph texts, which has other escapes and leaves more characters as they are.

## Main definitions

* `escaped`: the form of a string.
-/

namespace GraphText.Text

/-- A character in an escaped string. A character that does not show is given by its number. -/
def escapedChar (c : Char) : List Char :=
  match c with
  | '\x00' => ['\\', '0']
  | '\t' => ['\\', 't']
  | '\r' => ['\\', 'r']
  | '\n' => ['\\', 'n']
  | '"' => ['\\', '"']
  | '\\' => ['\\', '\\']
  | c =>
    if isUnshown c then
      ['\\', 'u', '\x7b'] ++ Nat.toDigits 16 c.toNat ++ ['\x7d']
    else [c]

/-- A string between quotes with every character visible. -/
def escaped (s : String) : String :=
  String.ofList ('"' :: (s.toList.flatMap escapedChar ++ ['"']))

end GraphText.Text

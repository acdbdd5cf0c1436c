import GraphText.Location

/-!
# Tokens

The words of a graph text. A quoted string holds what it means, without quotes
and escapes; every other word holds its spelling. Numbers are spelled loosely:
whether `12b` is a number is for the field that it is meant for. A character
that starts nothing else is a word too, which no rule of the grammar accepts.

## Main definitions

* `Lexeme`: a word.
* `Token`: a word and where it stands.
* `Lexeme.display`: a word in a message.
-/

namespace GraphText

/-- A word of a graph text. -/
inductive Lexeme where
  | name (text : String)
  | quoted (text : String)
  | number (text : String)
  | punct (character : Char)
  | unknown (character : Char)
  | eof
  deriving DecidableEq

namespace Lexeme

/-- The contents of a quoted string, the spelling of everything else. -/
def text : Lexeme → String
  | name text => text
  | quoted text => text
  | number text => text
  | punct c => String.singleton c
  | unknown c => String.singleton c
  | eof => ""

/-- The form in messages. The contents of a quoted string are shown as they are. -/
def display : Lexeme → String
  | eof => "EOF"
  | quoted text => "\"" ++ text ++ "\""
  | other => "'" ++ other.text ++ "'"

/-- The text of a word that may spell a truth value or a number. -/
def literal? : Lexeme → Option String
  | name text => some text
  | quoted text => some text
  | number text => some text
  | _ => none

end Lexeme

/-- A word and the position of its first character. -/
structure Token where
  lexeme : Lexeme
  position : Position
  deriving DecidableEq

end GraphText

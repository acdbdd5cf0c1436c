import GraphText.Text.Quoted
import GraphText.Token
import GraphText.Value.Kind

/-!
# Errors

Everything that can fail reports one type of error: a cause, and the place in
a source if there is one. The wording of a cause is in one function, and so is
the kind of error that it belongs to, by which applications tell errors apart
without reading messages. The place is the innermost one: an error that has
passed through one place keeps it on its way out.

## Main definitions

* `Cause`: what went wrong.
* `Cause.kind`, `Cause.message`: how it is classed and worded.
* `Error`: a cause and its place.
* `Error.locate`: the error as reported from a place.

## Theorems

* `bind_eq_ok`, `bind_eq_error`: what a result comes from that is not an error, or is one.
* `Error.locate_locate`: the first place wins.
-/

namespace GraphText

/-- What follows a result that is not an error. -/
theorem bind_eq_ok {ε α β : Type} {x : Except ε α} {f : α → Except ε β} {b : β}
    (h : (x >>= f) = .ok b) : ∃ a, x = .ok a ∧ f a = .ok b := by
  cases x with
  | error e => simp [bind, Except.bind] at h
  | ok a => exact ⟨a, rfl, h⟩

theorem map_eq_ok {ε α β : Type} {x : Except ε α} {f : α → β} {b : β}
    (h : x.map f = .ok b) : ∃ a, x = .ok a ∧ f a = b := by
  cases x with
  | error e => simp [Except.map] at h
  | ok a => exact ⟨a, rfl, by simpa [Except.map] using h⟩

/-- What an error comes from. -/
theorem bind_eq_error {ε α β : Type} {x : Except ε α} {f : α → Except ε β} {e : ε}
    (h : (x >>= f) = .error e) : x = .error e ∨ ∃ a, x = .ok a ∧ f a = .error e := by
  cases x with
  | error e' => exact .inl (by simpa [bind, Except.bind] using h)
  | ok a => exact .inr ⟨a, rfl, h⟩

theorem map_eq_error_iff {ε α β : Type} {x : Except ε α} {f : α → β} {e : ε} :
    x.map f = .error e ↔ x = .error e := by
  cases x with
  | error other => simp only [Except.map, Except.error.injEq]
  | ok a => simp only [Except.map, reduceCtorEq]

/-- The classes of errors. -/
inductive ErrorKind where
  /-- a token that cannot be read -/
  | lexical
  /-- a token where the grammar wants another -/
  | grammar
  | unknownType
  | duplicateType
  | unknownField
  /-- a value that does not fit its field -/
  | conversion
  /-- a name that stands for no object, or not yet -/
  | reference
  /-- a file that cannot be included -/
  | inclusion
  /-- a field list that no type may have -/
  | invalidSpec
  deriving DecidableEq

/-- The name of a class of errors. -/
def ErrorKind.text : ErrorKind → String
  | lexical => "lexical error"
  | grammar => "syntax error"
  | unknownType => "unknown type"
  | duplicateType => "duplicate type"
  | unknownField => "unknown field"
  | conversion => "value conversion error"
  | reference => "reference resolution error"
  | inclusion => "include I/O error"
  | invalidSpec => "invalid field spec"

/-- The places of the grammar that want a quoted string. -/
inductive QuotedRole where
  | referenced
  | template
  | cloneName
  | constantValue
  | includePath
  deriving DecidableEq

/-- What the grammar wants at a place. -/
inductive Expectation where
  | constantAfterDollar
  | character (c : Char)
  | quoted (role : QuotedRole)
  /-- a comma or the closing character -/
  | separator (close : Char)
  /-- a field name or the end of the body -/
  | field
  /-- a constant name or the end of the block -/
  | constant
  | endOfInput
  deriving DecidableEq

/-- The blocks that a body may begin with. -/
inductive Block where
  | constants
  | templates
  deriving DecidableEq

/-- What went wrong. -/
inductive Cause where
  | badString (flaw : Text.Quoted.Flaw)
  | expected (what : Expectation) (found : Lexeme)
  | unknownConstant (name : String)
  | substitutionTooDeep (name : String)
  /-- the text ends where an object should be -/
  | noObject
  | badTypeName (found : Lexeme)
  | blockAfterFields (block : Block)
  | unnamedTemplate
  | wrongRoot (required actual : String)
  | unknownType (name : String)
  | abstractType (name : String)
  | noPrototype (name : String)
  | duplicateType (name : String)
  | unknownField (field type : String)
  /-- a word of the right form whose text is no literal of the type -/
  | badLiteral (type : ScalarType) (text : String)
  /-- a word that cannot spell a value of the type -/
  | notLiteral (type : ScalarType) (found : Lexeme)
  | unknownChoice (text : String)
  | unknownFlag (name text : String)
  | wrongType (field : String) (wanted : ScalarType) (found : ValueType)
  | notOneValue (field : String) (found : Nat)
  | wrongCount (field : String) (wanted found : Nat)
  | notOneObject (field : String)
  | notObjectList (field : String)
  | wrongObject (field required actual : String)
  | missingObject (name : String)
  | missingTemplate (name : String)
  | wrongReference (type name : String)
  | emptyPath
  | includeCycle (path : Path)
  | includeTooDeep (limit : Nat) (path : Path)
  | unreadable (path : Path) (reason : String)
  | repeatedField (field type : String)
  | noCount (field type : String)
  | objectCount (field type : String)
  /-- a failure that an application reports in its own words -/
  | reported (kind : ErrorKind) (message : String)
  deriving DecidableEq

/-- What a quoted string is called at its place. -/
def QuotedRole.text : QuotedRole → String
  | referenced => "object name after USE"
  | template => "template name after CLONE"
  | cloneName => "name for the clone"
  | constantValue => "string value for constant"
  | includePath => "path after '<'"

/-- A text between single quotes. -/
def tick (text : String) : String :=
  "'" ++ text ++ "'"

/-- What the grammar wants, in words. -/
def Expectation.text : Expectation → String
  | constantAfterDollar => "constant name after '$'"
  | character c => tick (String.singleton c)
  | quoted role => "quoted " ++ role.text
  | separator close => "',' or " ++ tick (String.singleton close)
  | field => "field name or " ++ tick "\x7d"
  | constant => "constant name or " ++ tick "]"
  | endOfInput => "end of input"

/-- The name of a block in messages. -/
def Block.text : Block → String
  | constants => "Constants"
  | templates => "Templates"

namespace Cause

/-- The class that a cause belongs to. -/
def kind : Cause → ErrorKind
  | badString _ => .lexical
  | expected _ _ | unknownConstant _ | substitutionTooDeep _ | noObject | badTypeName _
  | blockAfterFields _ | unnamedTemplate | wrongRoot _ _ => .grammar
  | unknownType _ | abstractType _ | noPrototype _ => .unknownType
  | duplicateType _ => .duplicateType
  | unknownField _ _ => .unknownField
  | badLiteral _ _ | notLiteral _ _ | unknownChoice _ | unknownFlag _ _ | wrongType _ _ _
  | notOneValue _ _ | wrongCount _ _ _ | notOneObject _ | notObjectList _
  | wrongObject _ _ _ => .conversion
  | missingObject _ | missingTemplate _ | wrongReference _ _ => .reference
  | emptyPath | includeCycle _ | includeTooDeep _ _ | unreadable _ _ => .inclusion
  | repeatedField _ _ | noCount _ _ | objectCount _ _ => .invalidSpec
  | reported kind _ => kind

/-- The wording of a cause. -/
def message : Cause → String
  | badString (.escape letter) =>
    "Invalid escape sequence " ++ tick ("\\" ++ String.singleton letter)
  | badString .unclosed => "Found EOF inside quoted string"
  | expected what found => "Expected " ++ what.text ++ ", got " ++ found.display
  | unknownConstant name => "Unknown constant " ++ tick name
  | substitutionTooDeep name => "Constant substitution too deep expanding " ++ tick name
  | noObject => "Invalid empty name for object type"
  | badTypeName found => "Invalid name " ++ found.display ++ " for object type"
  | blockAfterFields block => block.text ++ " must appear before fields"
  | unnamedTemplate => "Template object must have a name"
  | wrongRoot required actual => "Expected a " ++ required ++ "; got " ++ actual
  | unknownType name => "Unknown object type " ++ tick name
  | abstractType name => "Cannot create instance of abstract type " ++ tick name
  | noPrototype name => "No original instance stored for type " ++ tick name
  | duplicateType name => "Object type registered more than once: " ++ tick name
  | unknownField field type => "Unknown field " ++ tick field ++ " in object of type " ++ tick type
  | badLiteral type text => "Invalid " ++ type.noun ++ " value " ++ tick text
  | notLiteral .string found => "Expected quoted string, got " ++ found.display
  | notLiteral type found => "Invalid " ++ type.noun ++ " value " ++ found.display
  | unknownChoice text => "Invalid value for enum: " ++ tick text
  | unknownFlag name text => "Invalid value for flag enum: " ++ tick name ++ " in " ++ tick text
  | wrongType field wanted found =>
    "Expected " ++ wanted.text ++ " value for field " ++ tick field ++ ", got " ++ found.text
  | notOneValue field found =>
    "Expected 1 value for field " ++ tick field ++ ", got " ++ toString found
  | wrongCount field wanted found =>
    "Expected " ++ toString wanted ++ " values for field " ++ tick field ++ ", got " ++
      toString found
  | notOneObject field => "Expected one object for field " ++ tick field
  | notObjectList field => "Expected an object list for field " ++ tick field
  | wrongObject field required actual =>
    "Incorrect object type " ++ tick actual ++ " for field " ++ tick field ++ "; expected " ++
      tick required
  | missingObject name => "Missing object with name " ++ tick name
  | missingTemplate name => "Missing template object with name " ++ tick name
  | wrongReference type name =>
    "Invalid reference to object of type " ++ tick type ++ " with name " ++ tick name
  | emptyPath => "Invalid empty path for included file"
  | includeCycle path => "Include cycle: " ++ tick path.text ++ " includes itself"
  | includeTooDeep limit path =>
    "Includes nested more than " ++ toString limit ++ " deep at " ++ tick path.text
  | unreadable path reason => "Failed to open file " ++ tick path.text ++ ": " ++ reason
  | repeatedField field type => "Duplicate field " ++ tick field ++ " in type " ++ tick type
  | noCount field type => "Field " ++ tick field ++ " in type " ++ tick type ++ " has a count of 0"
  | objectCount field type =>
    "Object field " ++ tick field ++ " in type " ++ tick type ++ " must have a count of 1"
  | reported _ message => message

end Cause

/-- A cause, and the place where it was noticed if it has one. -/
structure Error where
  cause : Cause
  location : Option Location := none
  deriving DecidableEq

namespace Error

/-- The error as reported from a place, which matters only to an error without one. -/
def locate (e : Error) (l : Location) : Error :=
  { e with location := e.location.or (some l) }

theorem locate_locate (e : Error) (l m : Location) : (e.locate l).locate m = e.locate l := by
  cases e with
  | mk cause location => cases location <;> rfl

/-- The line that is shown to a user. -/
def display (e : Error) : String :=
  match e.location with
  | some l => l.text ++ ": Parse error: " ++ e.cause.message
  | none => "Parse error: " ++ e.cause.message

end Error

/-- The error of a cause without a place. -/
instance : Coe Cause Error := ⟨fun cause => ⟨cause, none⟩⟩

end GraphText

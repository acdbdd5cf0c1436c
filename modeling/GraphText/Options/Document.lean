import GraphText.FileSystem
import GraphText.Options
import GraphText.Yaml.Document

/-!
# Options documents

Options may be written down in a YAML document: a mapping with a key for each
option, all of them optional, which may have other keys too. An empty document
has no option. The directory may be any scalar, taken by its text, or nothing;
a limit is a plain whole number below 2^64, decimal or behind `0x`, `0o` or
`0b`, and a decimal one has no leading zeros.

## Main definitions

* `Options.limit?`: the number that a limit is written as.
* `Options.ofDocument`: the options of a document.
* `Options.ofFile`: the options of a file.
-/

namespace GraphText.Options

/-- Why there are no options. -/
inductive Failure where
  | document
  | unreadable (path : Path)
  | file (path : Path)
  deriving DecidableEq

/-- What is said about a failure. -/
def Failure.message : Failure → String
  | document => "Failed to parse parser options YAML"
  | unreadable path => "Failed to read " ++ path.text
  | file path => "Invalid parser options in " ++ path.text

/-- The first number that no limit may have. -/
def limitBound : Nat := Nat.pow 2 64

/-- A number that a limit may have. -/
def bounded? (n : Nat) : Option Nat :=
  if n < limitBound then some n else none

/-- A decimal number without leading zeros. -/
def decimal? : List Char → Option Nat
  | ['0'] => some 0
  -- A leading zero is no number here, and no octal one either.
  | '0' :: _ => none
  | cs => Number.natural? 10 cs

/-- The number that a limit is written as. It may have one sign, a plus. -/
def limit? (cs : List Char) : Option Nat :=
  let digits :=
    match cs with
    | '+' :: digits => digits
    | digits => digits
  let number :=
    match digits with
    | '0' :: 'x' :: digits => Number.natural? 16 digits
    | '0' :: 'o' :: digits => Number.natural? 8 digits
    | '0' :: 'b' :: digits => Number.natural? 2 digits
    | digits => decimal? digits
  number.bind bounded?

/-- The plain scalars that stand for nothing. -/
def nothing : List String := ["", "~", "null", "Null", "NULL"]

/-- A directory, or none. -/
def directory? : Yaml.Node → Option (Option Path)
  | .plain text => if nothing.contains text then some none else some (some ⟨text⟩)
  | .quoted text => some (some ⟨text⟩)
  | _ => none

/-- A limit. -/
def limitOf? : Yaml.Node → Option Nat
  | .plain text => limit? text.toList
  | _ => none

/-- The options with one that is written under a key. Other keys have no meaning. -/
def withEntry (o : Options) (key : String) (value : Yaml.Node) : Option Options :=
  match key with
  | "base_dir" => (directory? value).map fun dir => { o with baseDir := dir }
  | "max_include_depth" => (limitOf? value).map fun n => { o with maxIncludeDepth := n }
  | "max_substitution_depth" => (limitOf? value).map fun n => { o with maxSubstitutionDepth := n }
  | _ => some o

/-- The keys of options. -/
def keys : List String := ["base_dir", "max_include_depth", "max_substitution_depth"]

/-- The options with the entries of a mapping, none of which is under a key that has been seen. -/
def withEntries (o : Options) (seen : List String) :
    List (Yaml.Node × Yaml.Node) → Option Options
  | [] => some o
  | (key, value) :: rest => do
    let key ← key.text?
    if seen.contains key then none
    else
      let seen := if keys.contains key then key :: seen else seen
      withEntries (← o.withEntry key value) seen rest

/-- The options of a node. -/
def ofNode? : Yaml.Node → Option Options
  | .plain "" => some {}
  | .mapping entries => withEntries {} [] entries
  | _ => none

/-- The options of a document. -/
def ofDocument (text : String) : Except Failure Options :=
  match (Yaml.Node.ofDocument? text).bind ofNode? with
  | some options => .ok options
  | none => .error .document

/-- The options of a file. -/
def ofFile (files : FileSystem) (path : Path) : Except Failure Options :=
  match files.read path with
  | .error _ => .error (.unreadable path)
  | .ok text => (ofDocument text).mapError fun _ => .file path

end GraphText.Options

import GraphText.Reader.Run

/-!
# Loading files

Reading files for an application, which wants to know what it was that could
not be loaded, or wants to go on with something else.

## Main definitions

* `load`: reads a file whose object must be of a type.
* `LoadError`: a failure, with what was to be loaded.
* `loadOr`: reads a file or takes a default.
-/

namespace GraphText

/-- What was to be loaded, and why it was not. -/
structure LoadError where
  typeName : String
  path : Path
  error : Error
  deriving DecidableEq

namespace LoadError

/-- What was to be loaded. -/
def summary (e : LoadError) : String :=
  "Failed to load " ++ e.typeName ++ " from " ++ e.path.text

/-- What was to be loaded, and why it was not. -/
def message (e : LoadError) : String :=
  e.summary ++ ": " ++ e.error.display

end LoadError

/-- Reads a file whose object must be of a type or derive from it. -/
def load (env : Reader.Environment) (heap : Heap) (path : Path) (typeName : String) :
    Except LoadError Reader.Output :=
  (readPathAs env heap path typeName).mapError fun error => ⟨typeName, path, error⟩

/-- Reads a file, or takes an object that is there already if the file cannot be loaded. -/
def loadOr (env : Reader.Environment) (heap : Heap) (path : Path) (typeName : String)
    (default : Ref) : Heap × Ref :=
  match load env heap path typeName with
  | .ok output => (output.heap, output.root)
  | .error _ => (heap, default)

end GraphText

import GraphText.Options.Document

/-!
# Options in variables

Two of the options may be given by variables of the environment. A limit is
decimal with at most one sign, a plus; a variable that is not set or holds no
limit leaves its option as it is.

## Main definitions

* `Options.ofVariables`: the options that variables give.
-/

namespace GraphText.Options

/-- The variable of the directory. -/
def directoryVariable : String := "OBJGRAPH_BASE_DIR"

/-- The variable of the limit of open files. -/
def includeDepthVariable : String := "OBJGRAPH_MAX_INCLUDE_DEPTH"

/-- The limit that a variable holds. -/
def variableLimit? (text : String) : Option Nat :=
  let digits :=
    match text.toList with
    | '+' :: digits => digits
    | digits => digits
  (Number.natural? 10 digits).bind bounded?

/-- The options that variables give, by the value of each variable that is set. -/
def ofVariables (valueOf? : String → Option String) : Options :=
  let defaults : Options := {}
  { defaults with
    baseDir := (valueOf? directoryVariable).map Path.mk
    maxIncludeDepth :=
      ((valueOf? includeDepthVariable).bind variableLimit?).getD defaults.maxIncludeDepth }

end GraphText.Options

import GraphText.Path

/-!
# Options

The limits of reading, and where the relative includes of a text that is not a
file start from.

## Main definitions

* `Options`: the options, with their defaults.
-/

namespace GraphText

/-- Options of reading. -/
structure Options where
  /-- the directory of includes in a text that is not a file; the current one if there is none -/
  baseDir : Option Path := none
  /-- how many files may be open at a time -/
  maxIncludeDepth : Nat := 64
  /-- how many constants may be expanded inside each other -/
  maxSubstitutionDepth : Nat := 32
  deriving DecidableEq

namespace Options

/-- The directory of includes in a text that is not a file. -/
def textDirectory (options : Options) : Path :=
  options.baseDir.getD ⟨"."⟩

end Options

end GraphText

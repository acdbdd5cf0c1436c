import GraphText.Error
import GraphText.Text.Pieces

/-!
# Flags

A flags field holds 32 bits and is written as the names of flags, separated by
bars. A flag may stand for several bits or for none, and flags may overlap, so
the same bits can be named in more than one way. Writing goes through the
declared flags in order and names one if all its bits are set and one of them
has not been named before. Bits that no flag covers are not written, nor is a
flag without bits.

## Main definitions

* `FlagTable`: the declared flags.
* `FlagTable.names`: the names that bits are written with.
* `FlagTable.encode`, `FlagTable.decode`: the text of bits and back.
-/

namespace GraphText

/-- Declared flags, in order, with their bits. -/
abbrev FlagTable := List (String × UInt32)

namespace FlagTable

/-- The names for `bits`, of which `unnamed` have not been named yet. -/
def namesFrom (bits : UInt32) : UInt32 → FlagTable → List String
  | _, [] => []
  | unnamed, (name, flag) :: table =>
    -- All of its bits are set, and it says something that has not been said.
    if bits &&& flag = flag ∧ unnamed &&& flag ≠ 0 then
      name :: namesFrom bits (unnamed &&& ~~~flag) table
    else namesFrom bits unnamed table

/-- The names that bits are written with. -/
def names (table : FlagTable) (bits : UInt32) : List String :=
  namesFrom bits bits table

/-- The text of bits. -/
def encode (table : FlagTable) (bits : UInt32) : String :=
  String.intercalate "|" (table.names bits)

/-- The bits of a flag. The empty name names nothing. -/
def find? (table : FlagTable) (name : String) : Option UInt32 :=
  if name = "" then none else table.lookup name

/-- The bits of all the flags that the pieces of `text` name. -/
def decodePieces (table : FlagTable) (text : String) : List (List Char) → Except Cause UInt32
  | [] => .ok 0
  | piece :: pieces =>
    let name := String.ofList (Text.trimmed piece)
    match table.find? name with
    | none => .error (.unknownFlag name text)
    | some flag => (decodePieces table text pieces).map (flag ||| ·)

/-- The bits that a text names. A blank text names none; otherwise every piece between bars is a
    name, with blanks around it ignored. -/
def decode (table : FlagTable) (text : String) : Except Cause UInt32 :=
  if Text.trimmed text.toList = [] then .ok 0
  else decodePieces table text (Text.pieces '|' text.toList)

end FlagTable

end GraphText

/-!
# Tracked values

A value that knows whether it was ever set. A default is not set; reading the
value leaves that as it is, and asking for the value in order to change it
counts as setting it, whether it is changed or not.

## Main definitions

* `Tracked`: a value and whether it was set.
* `Tracked.set`, `Tracked.update`: replacing and changing the value.
-/

namespace GraphText

/-- A value and whether it was set. -/
structure Tracked (α : Type) where
  value : α
  isSet : Bool
  deriving DecidableEq

namespace Tracked

variable {α : Type}

/-- A default. -/
def ofDefault (value : α) : Tracked α := ⟨value, false⟩

/-- A value that is set from the start. -/
def ofValue (value : α) : Tracked α := ⟨value, true⟩

/-- Sets the value. -/
def set (_ : Tracked α) (value : α) : Tracked α := ⟨value, true⟩

/-- Changes the value. -/
def update (t : Tracked α) (f : α → α) : Tracked α := ⟨f t.value, true⟩

theorem update_const (t : Tracked α) (value : α) : t.update (fun _ => value) = t.set value := rfl

end Tracked

end GraphText

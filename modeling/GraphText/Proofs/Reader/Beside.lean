import GraphText.Proofs.Heap.Beside
import GraphText.Proofs.Reader.Carried

/-!
# Turns beside another heap

A reader whose objects stand behind another heap does with every token what it
does alone: the same turn or the same fault, with the objects put behind the
heap and their new numbers in the context. To be put behind a heap is one way of
being carried, and the one in which positions stay as they are.

## Main definitions

* `Turn.beside`: a turn behind a heap.

## Theorems

* `turn_beside`: a turn behind a heap.
-/

namespace GraphText.Reader

/-- The turn with its objects behind a heap. -/
def Turn.beside (hb : Heap) : Turn → Turn
  | take heap context => take (hb.beside heap) (context.mapRefs hb.shift)
  | keep heap context => keep (hb.beside heap) (context.mapRefs hb.shift)
  | enter path start target => enter path start (target.mapRefs hb.shift)
  | leave root => leave (hb.shift root)

/-- Objects and a context behind a heap. -/
def placed (hb : Heap) (p : Heap × Context) : Heap × Context :=
  (hb.beside p.1, p.2.mapRefs hb.shift)

theorem Target.moved_id (target : Target) : target.moved id = target := by
  cases target <;> rfl

theorem Mode.moved_id (mode : Mode) : mode.moved id = mode := by
  cases mode <;> simp only [moved, Target.moved_id, id]

theorem Context.moved_id (c : Context) : c.moved id = c := by
  have hbody : Body.moved id = id := by
    funext body
    simp only [Body.moved, Target.moved_id, id]
  rw [moved, hbody, List.map_id, Mode.moved_id]

section

variable {hb h : Heap}

theorem Target.carried_beside (target : Target) :
    target.carried (.beside hb) = target.mapRefs hb.shift := by
  show (target.moved id).mapRefs hb.shift = _
  rw [Target.moved_id]

theorem Context.carried_beside (c : Context) :
    c.carried (.beside hb) = c.mapRefs hb.shift := by
  show (c.moved id).mapRefs hb.shift = _
  rw [Context.moved_id]

theorem Turn.carried_beside (t : Turn) : t.carried (.beside hb) = t.beside hb := by
  cases t with
  | take heap context | keep heap context =>
      simp only [carried, beside, Context.carried_beside]
      rfl
  | enter path start target =>
      simp only [carried, beside, Target.carried_beside]
      rfl
  | leave root => rfl

theorem result_beside (hb : Heap) {α β : Type} (f : α → β) (result : Result α) :
    (Carrier.beside hb).result f result = result.map f := by
  cases result <;> rfl

variable {reg : Registry} {source : Path} {c : Context} {token : Token}

theorem complete_beside (target : Target) (r : Ref) (start : Position) :
    complete reg (hb.beside h) (c.mapRefs hb.shift) (target.mapRefs hb.shift) (hb.shift r) start =
      (complete reg h c target r start).map (placed hb) := by
  have hpair : (Carrier.beside hb).pair = placed hb := by
    funext p
    rw [Carrier.pair, Context.carried_beside]
    rfl
  rw [← Context.carried_beside, ← Target.carried_beside, ← hpair, ← result_beside hb]
  exact complete_carried (k := .beside hb) target r start

/-- A turn behind a heap is the turn alone, put behind the heap. -/
theorem turn_beside :
    turn reg source (hb.beside h) (c.mapRefs hb.shift) token =
      (turn reg source h c token).map (Turn.beside hb) := by
  rw [← Context.carried_beside, ← funext Turn.carried_beside, ← result_beside hb]
  exact turn_carried (k := .beside hb)

end

end GraphText.Reader

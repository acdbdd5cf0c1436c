import GraphText.Proofs.Pool.Usage
import GraphText.Proofs.Heap.Graph

/-!
# The discipline of handing out

A pool hands the same object out to two holders if it has been told that the
object came back while it had not, and there is nothing in the pool that could
notice. So the promise is one to those who give back only what they have, and
it does not matter what they make prototypes of, what they do with the objects
or how often they start anew.

For them nothing is ever held and waiting at the same time. That is seen in the
history alone: handing out takes an object from those that wait, and taking back
adds one that was held. The only other objects that are handed out are new.

## Main definitions

* `Pool.History.Orderly`: no object handed out twice, none taken back from
  nobody.
* `Pool.Usage.Returns`: giving back only what is held.

## Theorems

* `Pool.History.Orderly.mem_held_iff`, `Pool.History.Orderly.mem_waiting_iff`:
  who holds what and what waits, in the words of the history.
* `Pool.Usage.orderly_apply`: no request makes a history disorderly.
* `Pool.Usage.acquire_disciplined`: what an orderly pool hands out.
-/

namespace GraphText

namespace Pool

namespace History

/-- No object was handed out while it was held, and none was taken back that was not. -/
def Orderly : History → Prop
  | [] => True
  | .handedOut _ r _ :: past => r ∉ held past ∧ Orderly past
  | .takenBack _ r :: past => r ∈ held past ∧ Orderly past
  | .adopted _ _ :: past | .emptied :: past => Orderly past

namespace Orderly

variable {past : History} {typeName : String} {r : Ref}

theorem held_nodup (h : past.Orderly) : past.held.Nodup := by
  induction past with
  | nil => exact List.nodup_nil
  | cons e past ih =>
      cases e with
      | handedOut => exact List.nodup_cons.2 ⟨h.1, ih h.2⟩
      | takenBack => exact (ih h.2).erase _
      | adopted | emptied => exact ih h

/-- What waits is held by nobody, and waits once. -/
theorem waiting_free (h : past.Orderly) :
    (past.waiting typeName).Nodup ∧ ∀ r ∈ past.waiting typeName, r ∉ past.held := by
  induction past with
  | nil => exact ⟨List.nodup_nil, fun _ hr => absurd hr List.not_mem_nil⟩
  | cons e past ih =>
      cases e with
      | handedOut other s isNew =>
          rcases ih h.2 with ⟨hnodup, hfree⟩
          -- It waited at most once, so now it does not wait any more.
          refine ⟨hnodup.erase s, fun r hr => ?_⟩
          rcases hnodup.mem_erase_iff.1 hr with ⟨hne, hr⟩
          exact List.not_mem_cons_of_ne_of_not_mem hne (hfree r hr)
      | takenBack other s =>
          rcases ih h.2 with ⟨hnodup, hfree⟩
          -- It was held until now, and so it did not wait.
          have hs : s ∉ (held past).erase s := (held_nodup h.2).not_mem_erase
          have hold : ∀ r ∈ waiting typeName past, r ∉ (held past).erase s :=
            fun r hr hmem => hfree r hr (List.mem_of_mem_erase hmem)
          unfold waiting held
          split
          · exact ⟨List.nodup_cons.2 ⟨fun hmem => hfree s hmem h.1, hnodup⟩,
              List.forall_mem_cons.2 ⟨hs, hold⟩⟩
          · exact ⟨hnodup, hold⟩
      | adopted => exact ih h
      | emptied => exact ⟨List.nodup_nil, fun _ hr => absurd hr List.not_mem_nil⟩

/-- What is held was handed out and has not been taken back since. -/
theorem mem_held_iff (h : past.Orderly) :
    r ∈ past.held ↔ Since (fun e => ∃ typeName isNew, e = .handedOut typeName r isNew)
      (fun e => ∃ typeName, e = .takenBack typeName r) past := by
  induction past with
  | nil => simp [held, not_since_nil]
  | cons e past ih =>
      rw [since_cons_iff]
      cases e with
      | handedOut other s isNew => simp [held, ih h.2, eq_comm]
      | takenBack other s =>
          simp [held, (held_nodup h.2).mem_erase_iff, ih h.2, eq_comm]
      | adopted | emptied => simp [held, ih h]

/-- What waits was taken back and has neither been handed out nor been forgotten since. -/
theorem mem_waiting_iff (h : past.Orderly) :
    r ∈ past.waiting typeName ↔ Since (· = .takenBack typeName r)
      (fun e => e = .emptied ∨ ∃ other isNew, e = .handedOut other r isNew) past := by
  induction past with
  | nil => simp [waiting, not_since_nil]
  | cons e past ih =>
      rw [since_cons_iff]
      cases e with
      | handedOut other s isNew =>
          simp [waiting, (waiting_free h.2).1.mem_erase_iff, ih h.2, eq_comm]
      | takenBack other s =>
          by_cases hother : other = typeName
          · simp [waiting, hother, ih h.2, eq_comm]
          · simp [waiting, hother, ih h.2]
      | adopted => simp [waiting, ih h]
      | emptied => simp [waiting]

end Orderly

end History

namespace Usage

/-- What can be asked for by those who give back only what they have. -/
def Returns (u : Usage) (q : Request) : Prop :=
  u.Allows q ∧ ∀ r, q = .release r → r ∈ u.past.held

section

variable {u : Usage} {q : Request} {reg : Registry} {typeName : String} {r : Ref} {pool : Pool}
  {heap : Heap}

/-- What is handed out has been held by nobody. -/
theorem not_held_of_handsOut (h : u.Sound) (horderly : u.past.Orderly)
    (hhands : u.pool.HandsOut reg u.heap typeName pool heap r) : r ∉ u.past.held := by
  cases hhands with
  | again hwaiting =>
      rw [h.waiting] at hwaiting
      exact horderly.waiting_free.2 r (hwaiting ▸ List.mem_cons_self)
  | anew _ _ hcopy =>
      rcases Heap.copy_eq_ok hcopy with ⟨rfl, -, -⟩
      exact fun hmem => Nat.lt_irrefl _ (h.held_lt hmem)

/-- No request makes a history disorderly. -/
theorem orderly_apply (h : u.Sound) (horderly : u.past.Orderly) (hq : u.Returns q) :
    (u.apply q).past.Orderly := by
  cases q with
  | adopt | reset | change => exact horderly
  | release r => exact ⟨hq.2 r rfl, horderly⟩
  | acquire reg typeName =>
      rcases apply_acquire_cases u reg typeName with hsame | ⟨pool, heap, r, hhands, hafter⟩
      · rw [hsame]
        exact horderly
      · rw [hafter]
        exact ⟨not_held_of_handsOut h horderly hhands, horderly⟩

theorem Reached.orderly (h : u.Reached Returns) : u.past.Orderly := by
  induction h with
  | start heap => trivial
  | request hreached hq ih =>
      exact orderly_apply (hreached.mono fun _ _ hq => hq.1).sound ih hq

/-- What a pool hands out to those who give back only what they have. No object is ever handed out
    to two of them at once. The object is of the type that was asked for: the last one that was
    given back if any waits, and else a new copy of the prototype. It cannot be had if and only if
    nothing waits and there is nothing to copy, and then nothing has changed. -/
theorem acquire_disciplined (h : u.Reached Returns) (reg : Registry) (typeName : String) :
    u.past.Orderly ∧ u.past.held.Nodup ∧
      (∀ pool heap r, u.pool.acquire reg u.heap typeName = .ok (pool, heap, r) →
        r ∉ u.past.held ∧ r < heap.size ∧ (heap.get r).typeName = typeName ∧
          match u.past.waiting typeName with
          | last :: _ => r = last ∧ heap = u.heap
          | [] => u.heap.size ≤ r ∧ ∃ source copied name,
              u.past.prototype? typeName = some source ∧
              u.heap.copy reg source true = .ok (copied, r) ∧
              heap = copied.modify r (·.withName name)) ∧
      ((∃ cause, u.pool.acquire reg u.heap typeName = .error cause) ↔
        u.past.waiting typeName = [] ∧ ∀ source, u.past.prototype? typeName = some source →
          ∃ cause, u.heap.copy reg source true = .error cause) ∧
      ∀ cause, u.pool.acquire reg u.heap typeName = .error cause →
        u.apply (.acquire reg typeName) = u := by
  have hsound := (h.mono fun _ _ hq => hq.1).sound
  have horderly := h.orderly
  refine ⟨horderly, horderly.held_nodup, fun pool heap r hacquire => ?_, hsound.exists_error_iff,
    fun cause => apply_acquire_error⟩
  have hhands := acquire_eq_ok_iff.1 hacquire
  rcases hsound.handsOut_fits hhands with ⟨hlt, htype⟩
  refine ⟨not_held_of_handsOut hsound horderly hhands, hlt, htype, ?_⟩
  -- What waits in the pool is what waits by its history, and what is copied is the prototype by its
  -- history.
  cases hhands with
  | again hwaiting =>
      rw [← hsound.waiting, hwaiting]
      exact ⟨rfl, rfl⟩
  | anew hwaiting hprototype hcopy =>
      rw [← hsound.waiting, hwaiting]
      rcases Heap.copy_eq_ok hcopy with ⟨rfl, -, -⟩
      exact ⟨Nat.le_refl _, _, _, _, hsound.prototype_eq_some_iff.2 ⟨_, hprototype, rfl⟩, hcopy,
        rfl⟩

end

/-- A node that refers to nothing. -/
def loneNode : Heap := ⟨#[{ typeName := "Node" }]⟩

/-- A pool that has lent a copy of a node, which has come back. -/
def lending : Usage where
  pool :=
    { prototypes := Table.empty.insert "Node" { object := 0, created := 1 }
      waiting := Table.empty.insert "Node" [1] }
  heap := ⟨#[{ typeName := "Node" },
    { typeName := "Node", name := some "Node_0", isClone := true }]⟩
  past := [.takenBack "Node" 1, .handedOut "Node" 1 true, .adopted "Node" 0]

theorem handsOut_loneNode :
    (Pool.empty.addPrototype loneNode 0).HandsOut .nodes loneNode "Node"
      { lending.pool with waiting := .empty } lending.heap 1 := by
  have hcopy : loneNode.copy .nodes 0 true =
      .ok (⟨#[{ typeName := "Node" }, { typeName := "Node", isClone := true }]⟩, 1) := by
    rw [Heap.copy_eq_ok_iff, if_pos rfl, Heap.deepCopy, Heap.preorder_leaf (by decide)]
    exact ⟨rfl, by decide⟩
  have hprototype :
      (Pool.empty.addPrototype loneNode 0).prototypes.find? "Node" = some { object := 0 } := rfl
  exact .anew rfl hprototype hcopy

theorem reached_lending : lending.Reached Returns := by
  have hstart : Reached Returns (fresh loneNode) := .start _
  have hadopted := hstart.request (q := .adopt 0) ⟨Nat.zero_lt_one, nofun⟩
  have hlent := hadopted.request (q := .acquire .nodes "Node") ⟨trivial, nofun⟩
  rw [apply_acquire handsOut_loneNode] at hlent
  exact hlent.request (q := .release 1) ⟨Nat.one_lt_two, by rintro r ⟨⟩; exact .head _⟩

theorem acquire_disciplined_lending :
    lending.Reached Returns ∧
      ∃ pool, lending.pool.acquire .nodes lending.heap "Node" = .ok (pool, lending.heap, 1) := by
  have hwaiting : lending.past.waiting "Node" = [1] := by decide
  rcases acquire_disciplined reached_lending .nodes "Node" with ⟨-, -, hok, herror, -⟩
  rw [hwaiting] at hok herror
  refine ⟨reached_lending, ?_⟩
  cases hacquire : lending.pool.acquire .nodes lending.heap "Node" with
  | error cause => exact absurd (herror.1 ⟨cause, hacquire⟩).1 (List.cons_ne_nil 1 [])
  | ok made =>
      obtain ⟨pool, heap, r⟩ := made
      rcases hok pool heap r hacquire with ⟨-, -, -, rfl, rfl⟩
      exact ⟨pool, rfl⟩

end Usage

end Pool

end GraphText

import GraphText.Proofs.Pool.Discipline

/-!
# Prototypes that are handed out

A pool is there to hand out copies and never the prototypes themselves, but
nothing in it keeps a prototype from being given back, nor what waits from being
made a prototype. Then it waits like any other object, and is handed out when
its turn comes. New copies are never prototypes, so this is the only way, and
whether it is taken can be told from the history alone.

Those who neither give back a prototype nor make one of what waits never get
one. In particular this is so for those who give back only what they have and
make prototypes only of what they did not get from the pool.

## Main definitions

* `Pool.IsPrototype`: the prototype of whatever type.
* `Pool.Usage.Spares`, `Pool.Usage.Disciplined`: two ways of being careful.

## Theorems

* `Pool.Usage.acquires_prototype_iff`: when a prototype is handed out.
* `Pool.Usage.Reached.not_isPrototype`: never to the careful.
* `Pool.Usage.Reached.spares`: the disciplined are careful.
-/

namespace GraphText

namespace Pool

/-- Whether an object is the prototype of a type. -/
def IsPrototype (pool : Pool) (r : Ref) : Prop :=
  ∃ typeName prototype, pool.prototypes.find? typeName = some prototype ∧ prototype.object = r

namespace History

/-- No prototype waits. -/
def Spared (past : History) : Prop :=
  ∀ typeName r, past.prototype? typeName = some r → r ∉ past.waiting typeName

/-- No prototype has ever been handed out. -/
def Withheld (past : History) : Prop :=
  ∀ typeName r, past.prototype? typeName = some r →
    ∀ other isNew, .handedOut other r isNew ∉ past

/-- What has been taken back had been handed out before. -/
theorem Orderly.exists_handedOut {past : History} (h : past.Orderly) {typeName : String} {r : Ref}
    (hr : .takenBack typeName r ∈ past) : ∃ other isNew, .handedOut other r isNew ∈ past := by
  induction past with
  | nil => cases hr
  | cons e past ih =>
      have hlater : (∃ other isNew, .handedOut other r isNew ∈ past) →
          ∃ other isNew, .handedOut other r isNew ∈ e :: past := by
        rintro ⟨other, isNew, hmem⟩
        exact ⟨other, isNew, List.mem_cons_of_mem _ hmem⟩
      rcases List.mem_cons.1 hr with rfl | hearlier
      · exact hlater (exists_handedOut_of_held h.1)
      · cases e with
        | handedOut | takenBack => exact hlater (ih h.2 hearlier)
        | adopted | emptied => exact hlater (ih h hearlier)

end History

namespace Usage

/-- What can be asked for by those who do not give back prototypes, nor make them of what waits. -/
def Spares (u : Usage) (q : Request) : Prop :=
  u.Allows q ∧
    (∀ r, q = .release r → u.past.prototype? (u.heap.get r).typeName ≠ some r) ∧
    ∀ r, q = .adopt r → r ∉ u.past.waiting (u.heap.get r).typeName

/-- What can be asked for by those who give back only what they have, and make prototypes only of
    what has never been handed out. -/
def Disciplined (u : Usage) (q : Request) : Prop :=
  u.Returns q ∧ ∀ r, q = .adopt r → ∀ typeName isNew, .handedOut typeName r isNew ∉ u.past

section

variable {u : Usage} {q : Request} {reg : Registry} {typeName : String} {r : Ref} {pool : Pool}
  {heap : Heap}

theorem isPrototype_handsOut_iff (h : u.Sound)
    (hhands : u.pool.HandsOut reg u.heap typeName pool heap r) :
    pool.IsPrototype r ↔ ∃ other, u.past.prototype? other = some r :=
  exists_congr fun other => by
    rw [← h.prototype_handsOut hhands, Option.map_eq_some_iff]

/-- What is handed out is a prototype if it was one before, and then it waited. -/
theorem isPrototype_iff (h : u.Sound)
    (hhands : u.pool.HandsOut reg u.heap typeName pool heap r) :
    pool.IsPrototype r ↔
      (u.past.waiting typeName).head? = some r ∧ u.past.prototype? typeName = some r := by
  rw [isPrototype_handsOut_iff h hhands]
  constructor
  · rintro ⟨other, hother⟩
    -- A prototype has been there before, so it is no new copy; and it is one of its own type.
    rcases h.recorded _ (History.adopted_of_prototype? hother) with ⟨hlt, rfl⟩
    cases hhands with
    | again hwaiting =>
        rw [h.waiting] at hwaiting
        have htype := (h.waiting_fits (hwaiting ▸ List.mem_cons_self)).2
        rw [hwaiting, ← htype]
        exact ⟨rfl, hother⟩
    | anew _ _ hcopy =>
        rcases Heap.copy_eq_ok hcopy with ⟨rfl, -, -⟩
        exact absurd hlt (Nat.lt_irrefl _)
  · rintro ⟨-, hprototype⟩
    exact ⟨typeName, hprototype⟩

/-- When a prototype is handed out: if and only if the object of its type that has been given back
    last, of those that wait, is the one that has been made the prototype last. -/
theorem acquires_prototype_iff (h : u.Reached Allows) (reg : Registry) (typeName : String) :
    (∃ pool heap r, u.pool.acquire reg u.heap typeName = .ok (pool, heap, r) ∧
        pool.IsPrototype r) ↔
      ∃ r, (u.past.waiting typeName).head? = some r ∧ u.past.prototype? typeName = some r := by
  constructor
  · rintro ⟨pool, heap, r, hacquire, hprototype⟩
    exact ⟨r, (isPrototype_iff h.sound (acquire_eq_ok_iff.1 hacquire)).1 hprototype⟩
  · rintro ⟨r, hhead, hprototype⟩
    rcases List.head?_eq_some_iff.1 hhead with ⟨rest, hwaiting⟩
    have hhands : u.pool.HandsOut reg u.heap typeName _ u.heap r :=
      .again ((h.sound.waiting typeName).trans hwaiting)
    exact ⟨_, _, r, acquire_eq_ok_iff.2 hhands,
      (isPrototype_iff h.sound hhands).2 ⟨hhead, hprototype⟩⟩

/-- Carefulness keeps prototypes from waiting. -/
theorem spared_apply (hspared : u.past.Spared) (hq : u.Spares q) : (u.apply q).past.Spared := by
  -- What is made a prototype does not wait, and what is given back is no prototype.
  cases q with
  | adopt r =>
      intro typeName s hs
      simp only [apply, History.prototype?] at hs
      split at hs
      next htype =>
        cases hs
        exact htype ▸ hq.2.2 r rfl
      · exact hspared typeName s hs
  | acquire reg typeName =>
      rcases apply_acquire_cases u reg typeName with hsame | ⟨pool, heap, r, hhands, hafter⟩
      · rw [hsame]
        exact hspared
      · rw [hafter]
        exact fun other s hs hmem => hspared other s hs (List.mem_of_mem_erase hmem)
  | release r =>
      intro typeName s hs hmem
      simp only [apply, History.waiting] at hmem
      split at hmem
      next htype =>
        rcases List.mem_cons.1 hmem with rfl | hmem
        · exact hq.2.1 s rfl (htype ▸ hs)
        · exact hspared typeName s hs hmem
      · exact hspared typeName s hs hmem
  | reset =>
      intro typeName s hs
      cases hs
  | change heap => exact hspared

theorem Reached.spared (h : u.Reached Spares) : u.past.Spared := by
  induction h with
  | start heap =>
      intro typeName s hs
      cases hs
  | request _ hq ih => exact spared_apply ih hq

/-- The careful are never handed out a prototype. -/
theorem Reached.not_isPrototype (h : u.Reached Spares)
    (hacquire : u.pool.acquire reg u.heap typeName = .ok (pool, heap, r)) :
    ¬ pool.IsPrototype r := by
  intro hprototype
  have hsound := (h.mono fun _ _ hq => hq.1).sound
  rcases (isPrototype_iff hsound (acquire_eq_ok_iff.1 hacquire)).1 hprototype with ⟨hhead, hmade⟩
  exact h.spared typeName r hmade (List.mem_of_head? hhead)

/-- Discipline keeps prototypes from being handed out, and so from being given back. -/
theorem withheld_apply (h : u.Sound) (horderly : u.past.Orderly) (hwithheld : u.past.Withheld)
    (hq : u.Disciplined q) : (u.apply q).past.Withheld := by
  cases q with
  | adopt r =>
      intro typeName s hs other isNew hmem
      simp only [apply, History.prototype?] at hs
      rcases List.mem_cons.1 hmem with hnow | hearlier
      · cases hnow
      · split at hs
        · cases hs
          exact hq.2 r rfl other isNew hearlier
        · exact hwithheld typeName s hs other isNew hearlier
  | acquire reg typeName =>
      rcases apply_acquire_cases u reg typeName with hsame | ⟨pool, heap, r, hhands, hafter⟩
      · rw [hsame]
        exact hwithheld
      · rw [hafter]
        intro name s hs other isNew hmem
        rcases List.mem_cons.1 hmem with hnow | hearlier
        · cases hnow
          -- It would have waited, so it would have been handed out before.
          have hprototype := (isPrototype_handsOut_iff h hhands).2 ⟨name, hs⟩
          rcases (isPrototype_iff h hhands).1 hprototype with ⟨hhead, hmade⟩
          have hback := History.takenBack_of_waiting (List.mem_of_head? hhead)
          rcases horderly.exists_handedOut hback with ⟨other, isNew, hearlier⟩
          exact hwithheld _ _ hmade other isNew hearlier
        · exact hwithheld name s hs other isNew hearlier
  | release r =>
      intro typeName s hs other isNew hmem
      rcases List.mem_cons.1 hmem with hnow | hearlier
      · cases hnow
      · exact hwithheld typeName s hs other isNew hearlier
  | reset =>
      intro typeName s hs
      cases hs
  | change heap => exact hwithheld

/-- The disciplined are careful. -/
theorem Reached.spares (h : u.Reached Disciplined) : u.Reached Spares := by
  suffices u.Reached Spares ∧ u.past.Withheld from this.1
  induction h with
  | start heap =>
      refine ⟨.start heap, fun typeName s hs => ?_⟩
      cases hs
  | @request u q hreached hq ih =>
      -- Who only gives back what was handed out gives back no prototype, and what waits was handed
      -- out earlier.
      rcases ih with ⟨hspares, hwithheld⟩
      have hreturns := hreached.mono fun _ _ hq => hq.1
      have hsound := (hreturns.mono fun _ _ hq => hq.1).sound
      have horderly := hreturns.orderly
      refine ⟨.request hspares ⟨hq.1.1, fun r hr hprototype => ?_, fun r hr hmem => ?_⟩,
        withheld_apply hsound horderly hwithheld hq⟩
      · rcases History.exists_handedOut_of_held (hq.1.2 r hr) with ⟨other, isNew, hmem⟩
        exact hwithheld _ r hprototype other isNew hmem
      · rcases horderly.exists_handedOut (History.takenBack_of_waiting hmem) with
          ⟨other, isNew, hearlier⟩
        exact hq.2 r hr other isNew hearlier

end

/-- A pool whose prototype has been given back. -/
def confiding : Usage :=
  [.adopt 0, .release 0].foldl apply (fresh loneNode)

theorem reached_confiding : confiding.Reached Allows := by
  have hstart : Reached Allows (fresh loneNode) := .start _
  have hadopted := hstart.request (q := .adopt 0) Nat.zero_lt_one
  exact hadopted.request (q := .release 0) Nat.zero_lt_one

theorem acquires_prototype_confiding :
    confiding.Reached Allows ∧
      ∃ pool heap r, confiding.pool.acquire .nodes confiding.heap "Node" = .ok (pool, heap, r) ∧
        pool.IsPrototype r :=
  ⟨reached_confiding, (acquires_prototype_iff reached_confiding .nodes "Node").2 ⟨0, rfl, rfl⟩⟩

/-- Prototypes are not kept back from everybody. -/
theorem acquires_given_prototype :
    ¬ ∀ u : Usage, u.Reached Allows → ∀ reg typeName pool heap r,
      u.pool.acquire reg u.heap typeName = .ok (pool, heap, r) → ¬ pool.IsPrototype r := by
  intro hnever
  exact hnever confiding reached_confiding .nodes "Node" _ _ 0 rfl ⟨"Node", ⟨0, 0⟩, rfl, rfl⟩

end Usage

end Pool

end GraphText

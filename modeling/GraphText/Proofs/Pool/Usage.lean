import GraphText.Pool
import GraphText.Proofs.Heap.Isomorphic
import GraphText.Proofs.Heap.Typed

/-!
# Pools in use

A pool does not remember whom it has handed an object out to, and after a reset
it does not remember anything. What is promised about hand-outs is therefore
said about the history of a pool, which only the proofs keep: what was made a
prototype, handed out and taken back, and when all of it was forgotten. From the
history alone follows what waits and what is the prototype of a type, and that
the pool agrees is the invariant of its use, however careless that is.

Whoever uses a pool also does other things with the objects: makes new ones,
sets fields, reads and copies. All of that is one request among the others,
which may put any heap in the place of the old one that keeps the types of the
objects, since nothing can change those. A request that fails is made as well,
and leaves everything as it is.

## Main definitions

* `Pool.HandsOut`: the two ways in which an object comes to be handed out.
* `Pool.Event`, `Pool.History`: what has happened to a pool.
* `Pool.History.held`, `Pool.History.waiting`, `Pool.History.prototype?`: what
  follows from a history.
* `Pool.Usage`, `Pool.Request`: a pool in use, and what can be asked of it.
* `Pool.Usage.Reached`: what any requests of some kind lead to.
* `Pool.Usage.Sound`: a pool that agrees with its history.

## Theorems

* `Pool.acquire_eq_ok_iff`, `Pool.acquire_eq_error_iff`: what a pool answers.
* `Pool.Usage.Sound.exists_error_iff_unregistered`: what makes a request fail.
* `Pool.Usage.Sound.apply`: every request leaves the pool in agreement with its
  history.
* `Pool.Usage.Reached.sound`: so does every run of requests.
-/

namespace GraphText

namespace Pool

/-- How an object of a type is handed out: the last one that was given back once more, or a new copy
    of the prototype if none waits. -/
inductive HandsOut (pool : Pool) (reg : Registry) (h : Heap) (typeName : String) :
    Pool → Heap → Ref → Prop
  | again {r : Ref} {rest : List Ref} (hwaiting : pool.waitingFor typeName = r :: rest) :
      HandsOut pool reg h typeName { pool with waiting := pool.waiting.insert typeName rest } h r
  | anew {prototype : Prototype} {copied : Heap} {r : Ref}
      (hwaiting : pool.waitingFor typeName = [])
      (hprototype : pool.prototypes.find? typeName = some prototype)
      (hcopy : h.copy reg prototype.object true = .ok (copied, r)) :
      HandsOut pool reg h typeName
        { pool with
          prototypes := pool.prototypes.insert typeName
            { prototype with created := prototype.created + 1 } }
        (copied.modify r (·.withName (copyName typeName prototype.created))) r

section

variable {pool pool' : Pool} {reg : Registry} {h h' : Heap} {typeName : String} {r : Ref}

theorem acquire_eq_ok_iff :
    pool.acquire reg h typeName = .ok (pool', h', r) ↔
      pool.HandsOut reg h typeName pool' h' r := by
  constructor
  · intro hacquire
    unfold acquire at hacquire
    split at hacquire
    next hwaiting =>
      cases hacquire
      exact .again hwaiting
    next hwaiting =>
      split at hacquire
      · cases hacquire
      next hprototype =>
        rcases bind_eq_ok hacquire with ⟨⟨copied, copy⟩, hcopy, hdone⟩
        cases hdone
        exact .anew hwaiting hprototype hcopy
  · rintro (hwaiting | ⟨hwaiting, hprototype, hcopy⟩)
    · unfold acquire
      rw [hwaiting]
    · unfold acquire
      rw [hwaiting, hprototype]
      dsimp only
      rw [hcopy]
      rfl

/-- What a pool cannot hand out: nothing waits, and there is no prototype or it cannot be copied. -/
theorem acquire_eq_error_iff {cause : Cause} :
    pool.acquire reg h typeName = .error cause ↔
      pool.waitingFor typeName = [] ∧
        (pool.prototypes.find? typeName = none ∧ cause = .noPrototype typeName ∨
          ∃ prototype, pool.prototypes.find? typeName = some prototype ∧
            h.copy reg prototype.object true = .error cause) := by
  unfold acquire
  cases hwaiting : pool.waitingFor typeName with
  | cons first rest => simp
  | nil =>
      cases hprototype : pool.prototypes.find? typeName with
      | none => simp [eq_comm]
      | some prototype =>
          cases hcopy : h.copy reg prototype.object true with
          | error e => simp [hcopy, bind, Except.bind]
          | ok made => simp [hcopy, bind, Except.bind]

theorem HandsOut.keepsTypes (hhands : pool.HandsOut reg h typeName pool' h' r) :
    h.KeepsTypes h' := by
  cases hhands with
  | again => exact .refl h
  | anew _ _ hcopy =>
      exact (Heap.keepsTypes_of_copy hcopy).trans (Heap.keepsTypes_of_withName _ _ _)

theorem waitingFor_insert (pool : Pool) (name other : String) (rs : List Ref) :
    { pool with waiting := pool.waiting.insert name rs }.waitingFor other =
      if other = name then rs else pool.waitingFor other := by
  unfold waitingFor
  rw [Table.find?_insert]
  split <;> rfl

end

/-- Something that has happened to a pool. -/
inductive Event where
  | adopted (typeName : String) (r : Ref)
  | handedOut (typeName : String) (r : Ref) (isNew : Bool)
  | takenBack (typeName : String) (r : Ref)
  | emptied
  deriving DecidableEq

/-- What an event tells about its object: the object is there and of this type. -/
def Event.Fits (h : Heap) : Event → Prop
  | .adopted typeName r | .handedOut typeName r _ | .takenBack typeName r =>
      r < h.size ∧ (h.get r).typeName = typeName
  | .emptied => True

/-- All that has happened to a pool, the latest event first. -/
abbrev History := List Event

namespace History

/-- The objects that were handed out and have not been taken back since. -/
def held : History → List Ref
  | [] => []
  | .handedOut _ r _ :: past => r :: held past
  | .takenBack _ r :: past => (held past).erase r
  | .adopted _ _ :: past | .emptied :: past => held past

/-- The objects of a type that were taken back and have neither been handed out nor forgotten since,
    the last taken back first. -/
def waiting (typeName : String) : History → List Ref
  | [] | .emptied :: _ => []
  | .handedOut _ r _ :: past => (waiting typeName past).erase r
  | .takenBack other r :: past =>
      if other = typeName then r :: waiting typeName past else waiting typeName past
  | .adopted _ _ :: past => waiting typeName past

/-- The object of a type that was made its prototype last, unless forgotten since. -/
def prototype? (typeName : String) : History → Option Ref
  | [] | .emptied :: _ => none
  | .adopted other r :: past => if other = typeName then some r else prototype? typeName past
  | .handedOut _ _ _ :: past | .takenBack _ _ :: past => prototype? typeName past

/-- An event of one kind has happened, and none of another kind since. -/
def Since (start stop : Event → Prop) (past : History) : Prop :=
  ∃ later e earlier, past = later ++ e :: earlier ∧ start e ∧ ∀ d ∈ later, ¬ stop d

theorem since_cons_iff {start stop : Event → Prop} {e : Event} {past : History} :
    Since start stop (e :: past) ↔ start e ∨ ¬ stop e ∧ Since start stop past := by
  constructor
  · rintro ⟨later, d, earlier, hpast, hstart, hlater⟩
    rcases List.cons_eq_append_iff.1 hpast with ⟨rfl, hhead⟩ | ⟨front, rfl, hrest⟩
    · cases hhead
      exact .inl hstart
    · rw [List.forall_mem_cons] at hlater
      exact .inr ⟨hlater.1, front, d, earlier, hrest, hstart, hlater.2⟩
  · rintro (hstart | ⟨hstop, later, d, earlier, rfl, hstart, hlater⟩)
    · exact ⟨[], e, past, rfl, hstart, fun _ hd => absurd hd List.not_mem_nil⟩
    · exact ⟨e :: later, d, earlier, rfl, hstart, List.forall_mem_cons.2 ⟨hstop, hlater⟩⟩

theorem not_since_nil {start stop : Event → Prop} : ¬ Since start stop [] := by
  rintro ⟨later, e, earlier, hpast, -⟩
  exact List.append_ne_nil_of_right_ne_nil later (List.cons_ne_nil e earlier) hpast.symm

/-- The prototype of a type is what became it, with no other one and no end of everything since. -/
theorem prototype?_eq_some_iff {past : History} {typeName : String} {r : Ref} :
    past.prototype? typeName = some r ↔
      Since (· = .adopted typeName r)
        (fun e => e = .emptied ∨ ∃ s, e = .adopted typeName s) past := by
  induction past with
  | nil => simp [prototype?, not_since_nil]
  | cons e past ih =>
      rw [since_cons_iff]
      cases e with
      | adopted other s =>
          by_cases hother : other = typeName
          · simp [prototype?, hother]
          · simp [prototype?, hother, ih]
      | handedOut | takenBack => simp [prototype?, ih]
      | emptied => simp [prototype?]

theorem exists_handedOut_of_held {past : History} {r : Ref} (hr : r ∈ past.held) :
    ∃ typeName isNew, .handedOut typeName r isNew ∈ past := by
  induction past with
  | nil => cases hr
  | cons e past ih =>
      have hlater : r ∈ held past → ∃ typeName isNew, .handedOut typeName r isNew ∈ e :: past := by
        intro hr
        rcases ih hr with ⟨typeName, isNew, hmem⟩
        exact ⟨typeName, isNew, List.mem_cons_of_mem _ hmem⟩
      cases e with
      | handedOut typeName s isNew =>
          rcases List.mem_cons.1 hr with rfl | hr
          · exact ⟨typeName, isNew, List.mem_cons_self⟩
          · exact hlater hr
      | takenBack _ s => exact hlater (List.mem_of_mem_erase hr)
      | adopted | emptied => exact hlater hr

theorem takenBack_of_waiting {past : History} {typeName : String} {r : Ref}
    (hr : r ∈ past.waiting typeName) : .takenBack typeName r ∈ past := by
  induction past with
  | nil => cases hr
  | cons e past ih =>
      cases e with
      | takenBack other s =>
          unfold waiting at hr
          split at hr
          next hother =>
            rcases List.mem_cons.1 hr with rfl | hr
            · exact hother ▸ List.mem_cons_self
            · exact List.mem_cons_of_mem _ (ih hr)
          · exact List.mem_cons_of_mem _ (ih hr)
      | handedOut => exact List.mem_cons_of_mem _ (ih (List.mem_of_mem_erase hr))
      | adopted => exact List.mem_cons_of_mem _ (ih hr)
      | emptied => cases hr

theorem adopted_of_prototype? {past : History} {typeName : String} {r : Ref}
    (hr : past.prototype? typeName = some r) : .adopted typeName r ∈ past := by
  induction past with
  | nil => cases hr
  | cons e past ih =>
      cases e with
      | adopted other s =>
          unfold prototype? at hr
          split at hr
          next hother =>
            cases hr
            exact hother ▸ List.mem_cons_self
          · exact List.mem_cons_of_mem _ (ih hr)
      | handedOut | takenBack => exact List.mem_cons_of_mem _ (ih hr)
      | emptied => cases hr

end History

/-- A pool in use: the pool, the objects, and what has happened. -/
structure Usage where
  pool : Pool
  heap : Heap
  past : History

/-- What can be asked of a pool, and whatever else is done with the objects. -/
inductive Request where
  | adopt (r : Ref)
  | acquire (reg : Registry) (typeName : String)
  | release (r : Ref)
  | reset
  | change (heap : Heap)

namespace Usage

/-- A pool that nothing has happened to yet. -/
def fresh (heap : Heap) : Usage := { pool := .empty, heap, past := [] }

/-- What a request leads to. -/
def apply (u : Usage) : Request → Usage
  | .adopt r =>
    { u with
      pool := u.pool.addPrototype u.heap r
      past := .adopted (u.heap.get r).typeName r :: u.past }
  | .acquire reg typeName =>
    match u.pool.acquire reg u.heap typeName with
    | .ok (pool, heap, r) =>
      { pool, heap, past := .handedOut typeName r (u.heap.size ≤ r) :: u.past }
    | .error _ => u
  | .release r =>
    { u with
      pool := u.pool.release u.heap r
      past := .takenBack (u.heap.get r).typeName r :: u.past }
  | .reset => { u with pool := .empty, past := .emptied :: u.past }
  | .change heap => { u with heap }

/-- What can be asked for: the objects that a request names are there, and no change of the objects
    changes their types. -/
def Allows (u : Usage) : Request → Prop
  | .adopt r | .release r => r < u.heap.size
  | .acquire _ _ | .reset => True
  | .change heap => u.heap.KeepsTypes heap

/-- What a new pool comes to by requests that may be made. -/
inductive Reached (may : Usage → Request → Prop) : Usage → Prop
  | start (heap : Heap) : Reached may (fresh heap)
  | request {u : Usage} {q : Request} : Reached may u → may u q → Reached may (u.apply q)

theorem Reached.mono {may can : Usage → Request → Prop} {u : Usage} (h : u.Reached may)
    (himp : ∀ u q, may u q → can u q) : u.Reached can := by
  induction h with
  | start heap => exact .start heap
  | request _ hq ih => exact .request ih (himp _ _ hq)

/-- A pool that agrees with its history. -/
structure Sound (u : Usage) : Prop where
  recorded : ∀ e ∈ u.past, e.Fits u.heap
  waiting : ∀ typeName, u.pool.waitingFor typeName = u.past.waiting typeName
  prototype : ∀ typeName,
    (u.pool.prototypes.find? typeName).map Prototype.object = u.past.prototype? typeName

section

variable {u : Usage} {q : Request} {typeName : String} {r : Ref}

theorem apply_acquire {reg : Registry} {pool : Pool} {heap : Heap}
    (hhands : u.pool.HandsOut reg u.heap typeName pool heap r) :
    u.apply (.acquire reg typeName) =
      { pool, heap, past := .handedOut typeName r (u.heap.size ≤ r) :: u.past } := by
  simp only [apply, acquire_eq_ok_iff.2 hhands]

/-- A request that fails leaves everything as it is. -/
theorem apply_acquire_error {reg : Registry} {cause : Cause}
    (herror : u.pool.acquire reg u.heap typeName = .error cause) :
    u.apply (.acquire reg typeName) = u := by
  simp only [apply, herror]

/-- Nothing happens, or an object is handed out. -/
theorem apply_acquire_cases (u : Usage) (reg : Registry) (typeName : String) :
    u.apply (.acquire reg typeName) = u ∨
      ∃ pool heap r, u.pool.HandsOut reg u.heap typeName pool heap r ∧
        u.apply (.acquire reg typeName) =
          { pool, heap, past := .handedOut typeName r (u.heap.size ≤ r) :: u.past } := by
  cases hacquire : u.pool.acquire reg u.heap typeName with
  | error cause => exact .inl (apply_acquire_error hacquire)
  | ok made =>
      have hhands := acquire_eq_ok_iff.1 hacquire
      exact .inr ⟨_, _, _, hhands, apply_acquire hhands⟩

theorem keepsTypes_apply (hq : u.Allows q) : u.heap.KeepsTypes (u.apply q).heap := by
  cases q with
  | adopt | release | reset => exact .refl _
  | change heap => exact hq
  | acquire reg typeName =>
      rcases apply_acquire_cases u reg typeName with hsame | ⟨pool, heap, r, hhands, hafter⟩
      · rw [hsame]
        exact .refl _
      · rw [hafter]
        exact hhands.keepsTypes

namespace Sound

theorem waiting_fits (h : u.Sound) (hr : r ∈ u.past.waiting typeName) :
    r < u.heap.size ∧ (u.heap.get r).typeName = typeName :=
  h.recorded _ (History.takenBack_of_waiting hr)

theorem held_lt (h : u.Sound) (hr : r ∈ u.past.held) : r < u.heap.size := by
  rcases History.exists_handedOut_of_held hr with ⟨typeName, isNew, hmem⟩
  exact (h.recorded _ hmem).1

theorem prototype_eq_some_iff (h : u.Sound) :
    u.past.prototype? typeName = some r ↔
      ∃ prototype, u.pool.prototypes.find? typeName = some prototype ∧ prototype.object = r := by
  rw [← h.prototype typeName, Option.map_eq_some_iff]

theorem prototype_fits (h : u.Sound) {prototype : Prototype}
    (hprototype : u.pool.prototypes.find? typeName = some prototype) :
    prototype.object < u.heap.size ∧ (u.heap.get prototype.object).typeName = typeName :=
  h.recorded _
    (History.adopted_of_prototype? (h.prototype_eq_some_iff.2 ⟨prototype, hprototype, rfl⟩))

/-- What is handed out is of the type that was asked for. -/
theorem handsOut_fits (h : u.Sound) {reg : Registry} {pool : Pool} {heap : Heap}
    (hhands : u.pool.HandsOut reg u.heap typeName pool heap r) :
    r < heap.size ∧ (heap.get r).typeName = typeName := by
  cases hhands with
  | again hwaiting =>
      rw [h.waiting] at hwaiting
      exact h.waiting_fits (hwaiting ▸ List.mem_cons_self)
  | @anew prototype copied _ _ hprototype hcopy =>
      rcases Heap.copy_eq_ok hcopy with ⟨rfl, hlt, -⟩
      have hnamed := Heap.keepsTypes_of_withName copied u.heap.size
        (copyName typeName prototype.created)
      refine ⟨Nat.lt_of_lt_of_le hlt hnamed.1, ?_⟩
      rw [hnamed.2 _ hlt, Heap.typeName_of_copy hcopy]
      exact (h.prototype_fits hprototype).2

/-- What is handed out does not wait for another type. -/
theorem waitingFor_handsOut (h : u.Sound) {reg : Registry} {pool : Pool} {heap : Heap}
    (hhands : u.pool.HandsOut reg u.heap typeName pool heap r) (other : String) :
    pool.waitingFor other = (u.past.waiting other).erase r := by
  cases hhands with
  | @again _ rest hwaiting =>
      rw [waitingFor_insert]
      split
      next hother => rw [hother, ← h.waiting, hwaiting, List.erase_cons_head]
      next hother =>
        -- The object has one type only, so it does not wait under another one.
        rw [h.waiting, List.erase_of_not_mem]
        intro hmem
        have htype := (h.waiting_fits (h.waiting typeName ▸ hwaiting ▸ List.mem_cons_self)).2
        exact hother ((h.waiting_fits hmem).2.symm.trans htype)
  | anew _ _ hcopy =>
      -- The new object has a number that none of those that wait can have.
      rcases Heap.copy_eq_ok hcopy with ⟨rfl, -, -⟩
      rw [List.erase_of_not_mem fun hmem => Nat.lt_irrefl _ (h.waiting_fits hmem).1]
      exact h.waiting other

theorem prototype_handsOut (h : u.Sound) {reg : Registry} {pool : Pool} {heap : Heap}
    (hhands : u.pool.HandsOut reg u.heap typeName pool heap r) (other : String) :
    (pool.prototypes.find? other).map Prototype.object = u.past.prototype? other := by
  rw [← h.prototype]
  cases hhands with
  | again => rfl
  | anew _ hprototype _ =>
      rw [Table.find?_insert]
      split
      next hother => rw [hother, hprototype]; rfl
      · rfl

/-- Nothing can be handed out if nothing waits and there is nothing that can be copied. -/
theorem exists_error_iff (h : u.Sound) {reg : Registry} :
    (∃ cause, u.pool.acquire reg u.heap typeName = .error cause) ↔
      u.past.waiting typeName = [] ∧ ∀ source, u.past.prototype? typeName = some source →
        ∃ cause, u.heap.copy reg source true = .error cause := by
  simp only [acquire_eq_error_iff, h.waiting, exists_and_left]
  refine and_congr_right fun _ => ?_
  rw [← h.prototype]
  cases u.pool.prototypes.find? typeName with
  | none => simp
  | some prototype => simp

/-- If the objects keep what belongs into their fields, what cannot be copied lacks a type. -/
theorem exists_error_iff_unregistered (h : u.Sound) {reg : Registry} (hvalid : reg.IsValid)
    (hdeclared : reg.IsDeclared)
    (hgraph : ∀ source, u.past.prototype? typeName = some source → u.heap.IsGraph reg source) :
    (∃ cause, u.pool.acquire reg u.heap typeName = .error cause) ↔
      u.past.waiting typeName = [] ∧ ∀ source, u.past.prototype? typeName = some source →
        ∃ x, Relation.ReflTransGen u.heap.Points source x ∧
          reg.find? (u.heap.get x).typeName = none := by
  rw [h.exists_error_iff]
  refine and_congr_right fun _ => forall_congr' fun source => imp_congr_right fun hsource => ?_
  rw [Heap.error_copy_iff, if_pos rfl,
    Heap.exists_deepCopy_iff hvalid hdeclared (hgraph source hsource)]
  simp only [not_forall, ← Option.isSome_iff_exists, Option.not_isSome_iff_eq_none, exists_prop]

/-- Every request leaves a pool in agreement with its history. -/
theorem apply (h : u.Sound) (hq : u.Allows q) : (u.apply q).Sound := by
  -- What the history tells of an object is about its type, which no request changes.
  have hold : ∀ e ∈ u.past, e.Fits (u.apply q).heap := by
    intro e he
    have hkeep := keepsTypes_apply hq
    cases e with
    | adopted | handedOut | takenBack =>
        rcases h.recorded _ he with ⟨hlt, htype⟩
        exact ⟨Nat.lt_of_lt_of_le hlt hkeep.1, (hkeep.2 _ hlt).trans htype⟩
    | emptied => trivial
  cases q with
  | adopt r =>
      refine ⟨List.forall_mem_cons.2 ⟨⟨hq, rfl⟩, hold⟩, h.waiting, fun other => ?_⟩
      unfold Usage.apply addPrototype History.prototype?
      dsimp only
      rw [Table.find?_insert]
      -- The table and the history compare the two names in opposite directions.
      by_cases hother : other = (u.heap.get r).typeName
      · rw [if_pos hother, if_pos hother.symm]
        rfl
      · rw [if_neg hother, if_neg (Ne.symm hother)]
        exact h.prototype other
  | acquire reg typeName =>
      rcases apply_acquire_cases u reg typeName with hsame | ⟨pool, heap, r, hhands, hafter⟩
      · rw [hsame]
        exact h
      · rw [hafter] at hold ⊢
        exact ⟨List.forall_mem_cons.2 ⟨h.handsOut_fits hhands, hold⟩,
          h.waitingFor_handsOut hhands, h.prototype_handsOut hhands⟩
  | release r =>
      refine ⟨List.forall_mem_cons.2 ⟨⟨hq, rfl⟩, hold⟩, fun other => ?_, h.prototype⟩
      unfold Usage.apply release History.waiting
      dsimp only
      rw [waitingFor_insert]
      by_cases hother : other = (u.heap.get r).typeName
      · rw [if_pos hother, if_pos hother.symm, h.waiting, hother]
      · rw [if_neg hother, if_neg (Ne.symm hother), h.waiting]
  | reset => exact ⟨List.forall_mem_cons.2 ⟨trivial, hold⟩, fun _ => rfl, fun _ => rfl⟩
  | change heap => exact ⟨hold, h.waiting, h.prototype⟩

end Sound

/-- A pool agrees with its history, whatever has been asked of it. -/
theorem Reached.sound (h : u.Reached Allows) : u.Sound := by
  induction h with
  | start heap => exact ⟨fun _ he => absurd he List.not_mem_nil, fun _ => rfl, fun _ => rfl⟩
  | request _ hq ih => exact ih.apply hq

end

end Usage

end Pool

end GraphText

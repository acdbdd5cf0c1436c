import GraphText.Proofs.Pool.Discipline
import GraphText.Proofs.Writer.Names

/-!
# The numbers of new copies

A new copy is named by its type and a number. The number counts the copies that
have been made of the prototype, so it belongs to the prototype and not to the
type: whoever makes another object the prototype of the type, or the same one
once more, makes the numbers start anew, and names come up again.

How far the names of a type can be relied on is therefore a matter of the
requests. From one reset to the next they are numbered in the order in which the
copies are made, and are all different, if and only if the prototype is not
replaced between two copies. What is given back and handed out once more, what
fails, and what is asked for of other types does not matter.

A name is what an object has when it is handed out. Later on it may be changed.

## Main definitions

* `Pool.Usage.copied?`, `Pool.Usage.copyNames`: the names of the new copies that
  requests make.
* `Pool.History.copiesSince`: how many copies have been made of a prototype.
* `Pool.Usage.Interrupts`: replacing the prototype between two copies.

## Theorems

* `Pool.Usage.Tallied.apply`: prototypes count their copies.
* `Pool.Usage.Tallied.copied?_cases`: what one request does to the numbers.
* `Pool.Usage.copies_numbered_iff`: when the names are in order.
-/

namespace GraphText

namespace Pool

theorem copyName_injective {typeName : String} {m n : Nat}
    (h : copyName typeName m = copyName typeName n) : m = n :=
  Writer.numbered_injective h

namespace History

/-- How many new copies have been handed out for a type since an object was made its prototype or
    everything was forgotten. -/
def copiesSince (typeName : String) : History → Nat
  | [] | .emptied :: _ => 0
  | .adopted other _ :: past => if other = typeName then 0 else copiesSince typeName past
  | .handedOut other _ isNew :: past =>
    if other = typeName ∧ isNew = true then copiesSince typeName past + 1
    else copiesSince typeName past
  | .takenBack _ _ :: past => copiesSince typeName past

end History

namespace Usage

/-- What several requests lead to, one after another. -/
def run (u : Usage) (qs : List Request) : Usage :=
  qs.foldl apply u

/-- Whether several requests can be made one after another. -/
def Permits : Usage → List Request → Prop
  | _, [] => True
  | u, q :: qs => u.Allows q ∧ (u.apply q).Permits qs

/-- The name of the new copy that a request makes for a type, if it makes one. -/
def copied? (u : Usage) (typeName : String) : Request → Option (Option String)
  | .acquire reg other =>
    match u.pool.acquire reg u.heap other with
    | .ok (_, heap, r) =>
      if other = typeName ∧ u.heap.size ≤ r then some (heap.get r).name else none
    | .error _ => none
  | .adopt _ | .release _ | .reset | .change _ => none

/-- The names of the new copies that requests make for a type, in the order of the requests. -/
def copyNames (typeName : String) : Usage → List Request → List (Option String)
  | _, [] => []
  | u, q :: qs => (u.copied? typeName q).toList ++ copyNames typeName (u.apply q) qs

/-- Whether a request gives a type another prototype. -/
def Replaces (u : Usage) (typeName : String) (q : Request) : Prop :=
  ∃ r, q = .adopt r ∧ (u.heap.get r).typeName = typeName

/-- Whether requests give a type another prototype and then make another new copy. -/
def Resumes (u : Usage) (typeName : String) (qs : List Request) : Prop :=
  ∃ before q after, qs = before ++ q :: after ∧ (u.run before).Replaces typeName q ∧
    copyNames typeName ((u.run before).apply q) after ≠ []

/-- Whether requests give a type another prototype between two new copies. -/
def Interrupts (u : Usage) (typeName : String) (qs : List Request) : Prop :=
  ∃ before q after, qs = before ++ q :: after ∧ (u.run before).Replaces typeName q ∧
    copyNames typeName u before ≠ [] ∧
    copyNames typeName ((u.run before).apply q) after ≠ []

/-- A pool that agrees with its history, and whose prototypes count their copies. -/
structure Tallied (u : Usage) : Prop extends Sound u where
  created : ∀ typeName, ((u.pool.prototypes.find? typeName).map Prototype.created).getD 0 =
    u.past.copiesSince typeName

section

variable {u : Usage} {q : Request} {qs : List Request} {typeName : String}

theorem copyNames_append (typeName : String) (u : Usage) (qs rs : List Request) :
    copyNames typeName u (qs ++ rs) =
      copyNames typeName u qs ++ copyNames typeName (u.run qs) rs := by
  induction qs generalizing u with
  | nil => rfl
  | cons q qs ih =>
      rw [List.cons_append, copyNames, copyNames, ih, List.append_assoc]
      rfl

theorem Permits.of_append {rs : List Request} (h : u.Permits (qs ++ rs)) :
    u.Permits qs ∧ (u.run qs).Permits rs := by
  induction qs generalizing u with
  | nil => exact ⟨trivial, h⟩
  | cons q qs ih =>
      rcases ih h.2 with ⟨hqs, hrs⟩
      exact ⟨⟨h.1, hqs⟩, hrs⟩

theorem Sound.lt_size_of_waitingFor (h : u.Sound) {r : Ref} {rest : List Ref}
    (hwaiting : u.pool.waitingFor typeName = r :: rest) : r < u.heap.size := by
  rw [h.waiting] at hwaiting
  exact (h.waiting_fits (hwaiting ▸ List.mem_cons_self)).1

/-- Prototypes go on counting, whatever is asked for. -/
theorem Tallied.apply (h : u.Tallied) (hq : u.Allows q) : (u.apply q).Tallied := by
  refine ⟨h.toSound.apply hq, fun typeName => ?_⟩
  cases q with
  | adopt r =>
      simp only [Usage.apply, addPrototype, Table.find?_insert, History.copiesSince]
      by_cases htype : typeName = (u.heap.get r).typeName
      · rw [if_pos htype, if_pos htype.symm]
        rfl
      · rw [if_neg htype, if_neg (Ne.symm htype)]
        exact h.created typeName
  | acquire reg other =>
      rcases apply_acquire_cases u reg other with hsame | ⟨pool, heap, r, hhands, hafter⟩
      · rw [hsame]
        exact h.created typeName
      · rw [hafter]
        simp only [History.copiesSince, decide_eq_true_eq]
        cases hhands with
        | again hwaiting =>
            -- What waited is in the heap already, so this is no copy.
            rw [if_neg fun hnew => Nat.not_le_of_lt (h.lt_size_of_waitingFor hwaiting) hnew.2]
            exact h.created typeName
        | anew _ hfound hcopy =>
            rcases Heap.copy_eq_ok hcopy with ⟨rfl, -, -⟩
            simp only [Table.find?_insert]
            by_cases htype : typeName = other
            · subst htype
              rw [if_pos rfl, if_pos ⟨rfl, Nat.le_refl _⟩, ← h.created typeName, hfound]
              rfl
            · rw [if_neg htype, if_neg fun hnew => htype hnew.1.symm]
              exact h.created typeName
  | release r => exact h.created typeName
  | reset => rfl
  | change heap => exact h.created typeName

/-- A prototype has made as many copies as the history tells. -/
theorem Tallied.created_eq (h : u.Tallied) {prototype : Prototype}
    (hfound : u.pool.prototypes.find? typeName = some prototype) :
    prototype.created = u.past.copiesSince typeName := by
  rw [← h.created typeName, hfound]
  rfl

theorem Tallied.run (h : u.Tallied) (hqs : u.Permits qs) : (u.run qs).Tallied := by
  induction qs generalizing u with
  | nil => exact h
  | cons q qs ih => exact ih (h.apply hqs.1) hqs.2

theorem Reached.tallied (h : u.Reached Allows) : u.Tallied := by
  induction h with
  | start heap => exact ⟨(Reached.start heap).sound, fun _ => rfl⟩
  | request _ hq ih => exact ih.apply hq

theorem copied?_of_handsOut {reg : Registry} {other : String} {pool : Pool} {heap : Heap} {r : Ref}
    (hhands : u.pool.HandsOut reg u.heap other pool heap r) :
    u.copied? typeName (.acquire reg other) =
      if other = typeName ∧ u.heap.size ≤ r then some (heap.get r).name else none := by
  simp only [copied?, acquire_eq_ok_iff.2 hhands]

/-- An acquisition makes a new copy, with the next number, or leaves the numbers as they are. -/
theorem Tallied.copied?_acquire (h : u.Tallied) (reg : Registry) (other typeName : String) :
    (u.copied? typeName (.acquire reg other) =
          some (some (copyName typeName (u.past.copiesSince typeName))) ∧
        (u.apply (.acquire reg other)).past.copiesSince typeName =
          u.past.copiesSince typeName + 1) ∨
      (u.copied? typeName (.acquire reg other) = none ∧
        (u.apply (.acquire reg other)).past.copiesSince typeName =
          u.past.copiesSince typeName) := by
  cases hacquire : u.pool.acquire reg u.heap other with
  | error cause =>
      refine .inr ⟨?_, ?_⟩
      · simp only [copied?, hacquire]
      · rw [apply_acquire_error hacquire]
  | ok made =>
      obtain ⟨pool, heap, r⟩ := made
      have hhands := acquire_eq_ok_iff.1 hacquire
      rw [apply_acquire hhands, copied?_of_handsOut hhands]
      simp only [History.copiesSince, decide_eq_true_eq]
      -- What waited was there before, so it is not counted. A copy of another type is not either.
      cases hhands with
      | again hwaiting =>
          have hold : ¬ (other = typeName ∧ u.heap.size ≤ r) := fun hnew =>
            Nat.not_le_of_lt (h.lt_size_of_waitingFor hwaiting) hnew.2
          rw [if_neg hold, if_neg hold]
          exact .inr ⟨rfl, rfl⟩
      | @anew prototype copied _ _ hfound hcopy =>
          rcases Heap.copy_eq_ok hcopy with ⟨rfl, hlt, -⟩
          by_cases hother : other = typeName
          · subst hother
            have hnew : other = other ∧ u.heap.size ≤ u.heap.size := ⟨rfl, Nat.le_refl _⟩
            have hnonempty : copyName other prototype.created ≠ "" :=
              Writer.numbered_ne_empty other prototype.created
            refine .inl ⟨?_, if_pos hnew⟩
            rw [if_pos hnew, Heap.get_modify, if_pos ⟨rfl, hlt⟩, ← h.created_eq hfound]
            simp only [Instance.withName, if_neg hnonempty]
          · have hold : ¬ (other = typeName ∧ u.heap.size ≤ u.heap.size) :=
              fun hnew => hother hnew.1
            rw [if_neg hold, if_neg hold]
            exact .inr ⟨rfl, rfl⟩

/-- What one request does to the numbers of a type: it makes a new copy, with the next number, or it
    starts them anew, or it leaves them as they are. -/
theorem Tallied.copied?_cases (h : u.Tallied) (hq : q ≠ .reset) (typeName : String) :
    (u.copied? typeName q = some (some (copyName typeName (u.past.copiesSince typeName))) ∧
        (u.apply q).past.copiesSince typeName = u.past.copiesSince typeName + 1) ∨
      (u.copied? typeName q = none ∧ u.Replaces typeName q ∧
        (u.apply q).past.copiesSince typeName = 0) ∨
      (u.copied? typeName q = none ∧ ¬ u.Replaces typeName q ∧
        (u.apply q).past.copiesSince typeName = u.past.copiesSince typeName) := by
  -- Only an acquisition makes copies, and only another prototype starts the numbers anew.
  cases q with
  | adopt r =>
      by_cases htype : (u.heap.get r).typeName = typeName
      · refine .inr (.inl ⟨rfl, ⟨r, rfl, htype⟩, ?_⟩)
        simp only [Usage.apply, History.copiesSince, if_pos htype]
      · refine .inr (.inr ⟨rfl, ?_, ?_⟩)
        · rintro ⟨s, hs, hsame⟩
          cases hs
          exact htype hsame
        · simp only [Usage.apply, History.copiesSince, if_neg htype]
  | acquire reg other =>
      rcases h.copied?_acquire reg other typeName with hnew | ⟨hnone, hsame⟩
      · exact .inl hnew
      · refine .inr (.inr ⟨hnone, ?_, hsame⟩)
        rintro ⟨r, hr, -⟩
        cases hr
  | release r =>
      refine .inr (.inr ⟨rfl, ?_, rfl⟩)
      rintro ⟨s, hs, -⟩
      cases hs
  | reset => exact absurd rfl hq
  | change heap =>
      refine .inr (.inr ⟨rfl, ?_, rfl⟩)
      rintro ⟨s, hs, -⟩
      cases hs

/-- The names of a number of copies, beginning with a number. -/
def namesFrom (typeName : String) (start count : Nat) : List (Option String) :=
  (List.range' start count).map fun n => some (copyName typeName n)

theorem Resumes.cons (h : (u.apply q).Resumes typeName qs) : u.Resumes typeName (q :: qs) := by
  rcases h with ⟨before, p, after, rfl, hreplaces, hafter⟩
  exact ⟨q :: before, p, after, rfl, hreplaces, hafter⟩

theorem Interrupts.cons (h : (u.apply q).Interrupts typeName qs) :
    u.Interrupts typeName (q :: qs) := by
  rcases h with ⟨before, p, after, rfl, hreplaces, hbefore, hafter⟩
  refine ⟨q :: before, p, after, rfl, hreplaces, ?_, hafter⟩
  exact fun hnil => hbefore (List.append_eq_nil_iff.1 hnil).2

/-- As long as no copy follows on another prototype, the numbers go on from where they are. -/
theorem Tallied.copyNames_of_not_resumes (h : u.Tallied) (hqs : u.Permits qs)
    (hreset : .reset ∉ qs) (hresumes : ¬ u.Resumes typeName qs) :
    ∃ count, copyNames typeName u qs = namesFrom typeName (u.past.copiesSince typeName) count := by
  induction qs generalizing u with
  | nil => exact ⟨0, rfl⟩
  | cons q qs ih =>
      rw [List.mem_cons, not_or] at hreset
      have hrest := ih (h.apply hqs.1) hqs.2 hreset.2 fun hlater => hresumes hlater.cons
      rcases hrest with ⟨count, hcount⟩
      rcases h.copied?_cases (Ne.symm hreset.1) typeName with
        ⟨hmade, hnext⟩ | ⟨hnone, hreplaces, -⟩ | ⟨hnone, -, hsame⟩
      · refine ⟨count + 1, ?_⟩
        rw [copyNames, hmade, hcount, hnext]
        rfl
      · -- Nothing is copied behind another prototype.
        have hempty : copyNames typeName (u.apply q) qs = [] :=
          Classical.byContradiction fun hne => hresumes ⟨[], q, qs, rfl, hreplaces, hne⟩
        refine ⟨0, ?_⟩
        rw [copyNames, hnone, hempty]
        rfl
      · refine ⟨count, ?_⟩
        rw [copyNames, hnone, hcount, hsame]
        rfl

/-- As long as the prototype is not replaced between two copies, the numbers begin with zero and go
    on from there. -/
theorem Tallied.copyNames_of_not_interrupts (h : u.Tallied) (hqs : u.Permits qs)
    (hreset : .reset ∉ qs) (hzero : u.past.copiesSince typeName = 0)
    (hinterrupts : ¬ u.Interrupts typeName qs) :
    ∃ count, copyNames typeName u qs = namesFrom typeName 0 count := by
  induction qs generalizing u with
  | nil => exact ⟨0, rfl⟩
  | cons q qs ih =>
      rw [List.mem_cons, not_or] at hreset
      have hlater : ¬ (u.apply q).Interrupts typeName qs := fun hlater => hinterrupts hlater.cons
      rcases h.copied?_cases (Ne.symm hreset.1) typeName with
        ⟨hmade, hnext⟩ | ⟨hnone, -, hnext⟩ | ⟨hnone, -, hsame⟩
      · -- Behind the first copy there must not be another prototype with copies.
        have hresumes : ¬ (u.apply q).Resumes typeName qs := by
          rintro ⟨before, p, after, rfl, hreplaces, hafter⟩
          refine hinterrupts ⟨q :: before, p, after, rfl, hreplaces, ?_, hafter⟩
          rw [copyNames, hmade]
          exact List.cons_ne_nil _ _
        rcases (h.apply hqs.1).copyNames_of_not_resumes hqs.2 hreset.2 hresumes with
          ⟨count, hcount⟩
        refine ⟨count + 1, ?_⟩
        rw [copyNames, hmade, hcount, hnext, hzero]
        rfl
      · rw [copyNames, hnone]
        exact ih (h.apply hqs.1) hqs.2 hreset.2 hnext hlater
      · rw [copyNames, hnone]
        exact ih (h.apply hqs.1) hqs.2 hreset.2 (hsame.trans hzero) hlater

/-- The first copy of a prototype has the number zero. -/
theorem Tallied.mem_copyNames (h : u.Tallied) (hqs : u.Permits qs) (hreset : .reset ∉ qs)
    (hzero : u.past.copiesSince typeName = 0) (hne : copyNames typeName u qs ≠ []) :
    some (copyName typeName 0) ∈ copyNames typeName u qs := by
  induction qs generalizing u with
  | nil => exact absurd rfl hne
  | cons q qs ih =>
      rw [List.mem_cons, not_or] at hreset
      rw [copyNames] at hne ⊢
      rcases h.copied?_cases (Ne.symm hreset.1) typeName with
        ⟨hmade, -⟩ | ⟨hnone, -, hnext⟩ | ⟨hnone, -, hsame⟩
      · rw [hmade, hzero]
        exact List.mem_cons_self
      · rw [hnone] at hne ⊢
        exact ih (h.apply hqs.1) hqs.2 hreset.2 hnext hne
      · rw [hnone] at hne ⊢
        exact ih (h.apply hqs.1) hqs.2 hreset.2 (hsame.trans hzero) hne

/-- If the prototype is replaced between two copies, two copies have the number zero. -/
theorem Tallied.not_nodup_of_interrupts (h : u.Tallied) (hqs : u.Permits qs)
    (hreset : .reset ∉ qs) (hzero : u.past.copiesSince typeName = 0)
    (hinterrupts : u.Interrupts typeName qs) : ¬ (copyNames typeName u qs).Nodup := by
  rcases hinterrupts with ⟨before, q, after, rfl, hreplaces, hbefore, hafter⟩
  rcases hqs.of_append with ⟨hpermitted, hq, hrest⟩
  rw [List.mem_append, List.mem_cons, not_or, not_or] at hreset
  have hmiddle := h.run hpermitted
  have hstarts : ((u.run before).apply q).past.copiesSince typeName = 0 := by
    rcases hmiddle.copied?_cases (Ne.symm hreset.2.1) typeName with
      ⟨hmade, -⟩ | ⟨-, -, hnext⟩ | ⟨-, hkeeps, -⟩
    · rcases hreplaces with ⟨r, rfl, -⟩
      cases hmade
    · exact hnext
    · exact absurd hreplaces hkeeps
  -- The number zero is given on this side of the replacement and on the other side.
  have hfirst := h.mem_copyNames hpermitted hreset.1 hzero hbefore
  have hagain := (hmiddle.apply hq).mem_copyNames hrest hreset.2.2 hstarts hafter
  rw [copyNames_append, copyNames]
  intro hnodup
  exact (List.nodup_append.1 hnodup).2.2 _ hfirst _ (List.mem_append_right _ hagain) rfl

/-- What the names of new copies are between two resets. They are numbered from zero in the order in
    which the copies are made if and only if no prototype is replaced between two copies, and they
    are all different in no other case. At any time, the number is how many copies have been made
    of the prototype that there is. -/
theorem copies_numbered_iff (h : u.Reached Allows) (hempty : u.pool = .empty) (hqs : u.Permits qs)
    (hreset : .reset ∉ qs) (typeName : String) :
    ((∃ count, copyNames typeName u qs =
        (List.range count).map fun n => some (copyName typeName n)) ↔
      ¬ u.Interrupts typeName qs) ∧
    ((copyNames typeName u qs).Nodup ↔ ¬ u.Interrupts typeName qs) ∧
    ∀ before q after name, qs = before ++ q :: after →
      (u.run before).copied? typeName q = some name →
      name = some (copyName typeName ((u.run before).past.copiesSince typeName)) := by
  have htallied := h.tallied
  have hzero : u.past.copiesSince typeName = 0 := by
    rw [← htallied.created typeName, hempty]
    rfl
  -- In order, then different, then not interrupted, then in order again.
  have hordered : ¬ u.Interrupts typeName qs → ∃ count, copyNames typeName u qs =
      (List.range count).map fun n => some (copyName typeName n) := by
    intro hnot
    rcases htallied.copyNames_of_not_interrupts hqs hreset hzero hnot with ⟨count, hcount⟩
    exact ⟨count, by rw [hcount, namesFrom, List.range_eq_range']⟩
  have hdifferent : (∃ count, copyNames typeName u qs =
      (List.range count).map fun n => some (copyName typeName n)) →
        (copyNames typeName u qs).Nodup := by
    rintro ⟨count, hcount⟩
    rw [hcount]
    refine List.Nodup.map (fun m n heq => ?_) List.nodup_range
    exact copyName_injective (Option.some.inj heq)
  have hsteady : (copyNames typeName u qs).Nodup → ¬ u.Interrupts typeName qs :=
    fun hnodup hinterrupts =>
      htallied.not_nodup_of_interrupts hqs hreset hzero hinterrupts hnodup
  refine ⟨⟨fun hcount => hsteady (hdifferent hcount), hordered⟩,
    ⟨hsteady, fun hnot => hdifferent (hordered hnot)⟩, ?_⟩
  rintro before q after name rfl hname
  rw [List.mem_append, List.mem_cons, not_or, not_or] at hreset
  rcases (htallied.run hqs.of_append.1).copied?_cases (Ne.symm hreset.2.1) typeName with
    ⟨hmade, -⟩ | ⟨hnone, -⟩ | ⟨hnone, -⟩
  · exact Option.some.inj (hname.symm.trans hmade)
  · rw [hnone] at hname
    cases hname
  · rw [hnone] at hname
    cases hname

end

/-- One more copy of the lone node is made, while the first one is with somebody. -/
theorem copied?_lentNode {u : Usage} {created : Nat} (hheap : u.heap = lending.heap)
    (hwaiting : u.pool.waitingFor "Node" = [])
    (hprototype : u.pool.prototypes.find? "Node" = some { object := 0, created }) :
    u.copied? "Node" (.acquire .nodes "Node") = some (some (copyName "Node" created)) := by
  have hcopy : u.heap.copy .nodes 0 true =
      .ok (u.heap.append [{ typeName := "Node", isClone := true }], 2) := by
    rw [hheap, Heap.copy_eq_ok_iff, if_pos rfl, Heap.deepCopy, Heap.preorder_leaf (by decide)]
    exact ⟨rfl, by decide⟩
  have hnonempty : copyName "Node" created ≠ "" := Writer.numbered_ne_empty "Node" created
  rw [copied?_of_handsOut (.anew hwaiting hprototype hcopy), hheap, if_pos (by decide),
    Heap.get_modify, if_pos (by decide)]
  simp only [Instance.withName, if_neg hnonempty]

/-- The lone node is the prototype and its copy has been handed out. -/
def lent : Usage where
  pool := { lending.pool with waiting := .empty }
  heap := lending.heap
  past := [.handedOut "Node" 1 true, .adopted "Node" 0]

theorem lent_of_adopted :
    ((fresh loneNode).apply (.adopt 0)).apply (.acquire .nodes "Node") = lent ∧
      ((fresh loneNode).apply (.adopt 0)).copied? "Node" (.acquire .nodes "Node") =
        some (some "Node_0") :=
  ⟨apply_acquire (u := (fresh loneNode).apply (.adopt 0)) handsOut_loneNode,
    (copied?_of_handsOut (u := (fresh loneNode).apply (.adopt 0)) handsOut_loneNode).trans
      (by decide)⟩

/-- Lending two copies of a node, the first of them twice. -/
def lendingAgain : List Request :=
  [.adopt 0, .acquire .nodes "Node", .release 1, .acquire .nodes "Node", .acquire .nodes "Node"]

theorem permits_lendingAgain : (fresh loneNode).Permits lendingAgain := by
  refine ⟨Nat.zero_lt_one, trivial, ?_, trivial, trivial, trivial⟩
  rw [lent_of_adopted.1]
  exact Nat.one_lt_two

/-- What is handed out once more takes no number. -/
theorem copies_numbered_lendingAgain :
    (fresh loneNode).Reached Allows ∧ (fresh loneNode).pool = .empty ∧
      (fresh loneNode).Permits lendingAgain ∧ .reset ∉ lendingAgain ∧
      copyNames "Node" (fresh loneNode) lendingAgain = [some "Node_0", some "Node_1"] := by
  have hreset : .reset ∉ lendingAgain := by simp [lendingAgain]
  have hsteady : ¬ (fresh loneNode).Interrupts "Node" lendingAgain := by
    rintro ⟨before, q, after, hqs, ⟨r, rfl, -⟩, hbefore, -⟩
    cases before with
    | nil => exact hbefore rfl
    | cons first before =>
        -- Only the first request makes a prototype.
        have hmem : .adopt r ∈ lendingAgain.tail := by
          rw [hqs]
          exact List.mem_append_right _ List.mem_cons_self
        simp [lendingAgain] at hmem
  rcases (copies_numbered_iff (.start loneNode) rfl permits_lendingAgain hreset "Node").1.2 hsteady
    with ⟨count, hcount⟩
  have hlength : (copyNames "Node" (fresh loneNode) lendingAgain).length = 2 := by
    have hback : lent.apply (.release 1) = lending := rfl
    -- What waits is handed out first.
    have hwaited : lending.pool.HandsOut .nodes lending.heap "Node" _ lending.heap 1 := .again rfl
    have hfull : (lending.apply (.acquire .nodes "Node")).copied? "Node" (.acquire .nodes "Node") =
        some (some (copyName "Node" 1)) := by
      rw [apply_acquire hwaited]
      exact copied?_lentNode rfl rfl rfl
    simp only [lendingAgain, copyNames, lent_of_adopted, hback, hfull, copied?_of_handsOut hwaited]
    rfl
  rw [hcount, List.length_map, List.length_range] at hlength
  refine ⟨.start loneNode, rfl, permits_lendingAgain, hreset, ?_⟩
  rw [hcount, hlength]
  decide

/-- Lending a copy of a node on each of two occasions of making it the prototype. -/
def lendingAnew : List Request :=
  [.adopt 0, .acquire .nodes "Node", .adopt 0, .acquire .nodes "Node"]

theorem permits_lendingAnew : (fresh loneNode).Permits lendingAnew := by
  refine ⟨Nat.zero_lt_one, trivial, ?_, trivial, trivial⟩
  rw [lent_of_adopted.1]
  exact Nat.zero_lt_two

/-- A second time the numbers start anew, so they are not in order from one reset to the next. -/
theorem not_copies_numbered :
    ¬ ∀ u : Usage, u.Reached Allows → u.pool = .empty → ∀ qs, u.Permits qs → .reset ∉ qs →
      ∀ typeName, ∃ count, copyNames typeName u qs =
        (List.range count).map fun n => some (copyName typeName n) := by
  intro hall
  have hnames : copyNames "Node" (fresh loneNode) lendingAnew = [some "Node_0", some "Node_0"] := by
    have hanew : (lent.apply (.adopt 0)).copied? "Node" (.acquire .nodes "Node") =
        some (some (copyName "Node" 0)) :=
      copied?_lentNode rfl rfl rfl
    simp only [lendingAnew, copyNames, lent_of_adopted, hanew]
    rfl
  have hreset : .reset ∉ lendingAnew := by simp [lendingAnew]
  rcases hall _ (.start loneNode) rfl _ permits_lendingAnew hreset "Node" with ⟨count, hcount⟩
  have hlength := congrArg List.length hcount
  rw [hnames, List.length_map, List.length_range] at hlength
  rw [hnames, ← hlength] at hcount
  exact absurd hcount (by decide)

end Usage

end Pool

end GraphText

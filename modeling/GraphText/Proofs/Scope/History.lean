import GraphText.Scope
import Mathlib.Data.List.GetD

/-!
# Scopes and their history

What a name stands for is a matter of what has been defined and of which scopes
are still open, and not of any table. Here both are read off the history of the
scopes, which is the list of all that has been asked of them.

An open scope is known by its depth, since of each depth at most one is open. A
definition was made in it if it was the innermost one then and if, ever since,
at least as many scopes have been open: a scope is closed when fewer are left
open than there were inside it. The scope of the document has depth 0 and is
never closed.

The tables say the same. Opening a scope adds an empty one, which is no
different from a scope that is not there; closing takes the deepest one away;
and a definition goes into the deepest one. So the scope of each depth keeps, of
each kind of definition, the last one that was made in it, and a lookup finds
the deepest scope that keeps one.

## Main definitions

* `Scopes.Request`, `Scopes.History`: what scopes are asked, and all of it.
* `Scopes.History.MadeIn`: what was asked in a scope that is still open.
* `Scopes.History.LastIn`, `Scopes.History.Lacks`: the last definition of a kind
  in such a scope, or that there is none.
* `Scopes.level`: the open scope of a depth.

## Theorems

* `Scopes.findSome?_all_eq_some_iff`: a lookup finds the deepest scope.
* `Scopes.History.Kind.find?_level`: a scope keeps the last definition made in it.
* `Scopes.History.lookups_agree`: what names stand for behind every history.
-/

namespace GraphText

namespace Scopes

/-- What scopes can be asked to do. -/
inductive Request where
  | opens
  | closes
  | constant (name value : String)
  | object (name : String) (r : Ref)
  | template (name : String) (r : Ref)
  deriving DecidableEq

namespace Request

/-- The scopes behind a request. -/
def apply (s : Scopes) : Request → Scopes
  | opens => s.open
  | closes => s.close
  | constant name value => s.defineConstant name value
  | object name r => s.define name r
  | template name r => s.defineTemplate name r

/-- What a definition does to the scope that it is made in. -/
def change : Request → Scope → Scope
  | constant name value, scope => { scope with constants := scope.constants.insert name value }
  | object name r, scope => { scope with objects := scope.objects.insert name r }
  | template name r, scope => { scope with templates := scope.templates.insert name r }
  | _, scope => scope

/-- The value that is given to the constant of this name. -/
def constant? (name : String) : Request → Option String
  | constant key value => if key = name then some value else none
  | _ => none

/-- The object that is given this name. -/
def object? (name : String) : Request → Option Ref
  | object key r => if key = name then some r else none
  | _ => none

/-- The template that is given this name. -/
def template? (name : String) : Request → Option Ref
  | template key r => if key = name then some r else none
  | _ => none

end Request

/-- All that scopes have been asked since the beginning of the document, the latest first. -/
abbrev History := List Request

namespace History

variable {α : Type} {past : History} {request : Request} {d : Nat} {given : Request → Option α}
  {a : α}

/-- The scopes behind all that they have been asked. -/
def scopes : History → Scopes
  | [] => {}
  | request :: past => request.apply (scopes past)

/-- How many scopes are open inside the one of the document, which is never closed. -/
def depth : History → Nat
  | [] => 0
  | .opens :: past => depth past + 1
  | .closes :: past => depth past - 1
  | _ :: past => depth past

/-- The request was made in the open scope of this depth, before these later ones: the scope was the
    innermost one, and has not been closed since. -/
def MadeIn (past : History) (d : Nat) (later : History) (request : Request) : Prop :=
  ∃ earlier, past = later ++ request :: earlier ∧ depth earlier = d ∧
    ∀ since, since <:+ later → d ≤ depth (since ++ request :: earlier)

/-- The last definition of a kind in the open scope of this depth. -/
def LastIn (past : History) (d : Nat) (given : Request → Option α) (a : α) : Prop :=
  ∃ later request, MadeIn past d later request ∧ given request = some a ∧
    ∀ later' request', MadeIn past d later' request' → later'.length < later.length →
      given request' = none

/-- There is no definition of a kind in the open scope of this depth. -/
def Lacks (past : History) (d : Nat) (given : Request → Option α) : Prop :=
  ∀ later request, MadeIn past d later request → given request = none

/-- The latest request was made in a scope if that was the innermost one, and hides none there. -/
theorem madeIn_cons_iff {latest : Request} {later : History} :
    MadeIn (latest :: past) d later request ↔ d ≤ depth (latest :: past) ∧
      ((later = [] ∧ request = latest ∧ depth past = d) ∨
        ∃ rest, later = latest :: rest ∧ MadeIn past d rest request) := by
  constructor
  · rintro ⟨earlier, hpast, hdepth, hsince⟩
    have hle := hsince later (List.suffix_refl _)
    rw [← hpast] at hle
    refine ⟨hle, ?_⟩
    -- With nothing later the request is the latest itself; else the latest is the first of the
    -- later ones.
    cases later with
    | nil =>
        cases hpast
        exact .inl ⟨rfl, rfl, hdepth⟩
    | cons first rest =>
        cases hpast
        exact .inr ⟨rest, rfl, earlier, rfl, hdepth,
          fun since h => hsince since (h.trans (List.suffix_cons _ _))⟩
  · rintro ⟨hle, ⟨rfl, rfl, hdepth⟩ | ⟨rest, rfl, earlier, rfl, hdepth, hsince⟩⟩
    · refine ⟨past, rfl, hdepth, fun since h => ?_⟩
      rw [List.suffix_nil.1 h]
      exact hle
    · refine ⟨earlier, rfl, hdepth, fun since h => ?_⟩
      rcases List.suffix_cons_iff.1 h with rfl | h
      · exact hle
      · exact hsince since h

theorem not_madeIn_nil {later : History} : ¬ MadeIn [] d later request := by
  rintro ⟨earlier, hpast, -⟩
  exact List.append_ne_nil_of_right_ne_nil later (List.cons_ne_nil request earlier) hpast.symm

theorem not_lastIn_nil : ¬ LastIn [] d given a := by
  rintro ⟨later, request, hmade, -⟩
  exact not_madeIn_nil hmade

theorem lacks_nil : Lacks [] d given :=
  fun _ _ hmade => absurd hmade not_madeIn_nil

/-- A definition in the innermost scope is the last one there. -/
theorem lastIn_cons_of_given {latest : Request} {b : α} (hle : d ≤ depth (latest :: past))
    (hdepth : depth past = d) (hgiven : given latest = some b) :
    LastIn (latest :: past) d given a ↔ b = a := by
  have hfirst : MadeIn (latest :: past) d [] latest :=
    madeIn_cons_iff.2 ⟨hle, .inl ⟨rfl, rfl, hdepth⟩⟩
  constructor
  · rintro ⟨later, request, hmade, ha, hlast⟩
    rcases (madeIn_cons_iff.1 hmade).2 with ⟨rfl, rfl, -⟩ | ⟨rest, rfl, -⟩
    · rw [hgiven] at ha
      exact Option.some.inj ha
    -- Anything else would have to be later than the latest one.
    · have hnone := hlast [] latest hfirst (Nat.zero_lt_succ _)
      rw [hgiven] at hnone
      cases hnone
  · rintro rfl
    exact ⟨[], latest, hfirst, hgiven, fun _ _ _ hlt => absurd hlt (Nat.not_lt_zero _)⟩

/-- Any other request leaves what was last in a scope, or closes the scope. -/
theorem lastIn_cons_of_not_given {latest : Request} (h : depth past = d → given latest = none) :
    LastIn (latest :: past) d given a ↔ d ≤ depth (latest :: past) ∧ LastIn past d given a := by
  constructor
  · rintro ⟨later, request, hmade, ha, hlast⟩
    rcases madeIn_cons_iff.1 hmade with ⟨hle, ⟨rfl, rfl, hdepth⟩ | ⟨rest, rfl, hrest⟩⟩
    · rw [h hdepth] at ha
      cases ha
    · refine ⟨hle, rest, request, hrest, ha, fun later' request' hmade' hlt => ?_⟩
      exact hlast (latest :: later') request' (madeIn_cons_iff.2 ⟨hle, .inr ⟨_, rfl, hmade'⟩⟩)
        (Nat.succ_lt_succ hlt)
  · rintro ⟨hle, later, request, hmade, ha, hlast⟩
    refine ⟨latest :: later, request, madeIn_cons_iff.2 ⟨hle, .inr ⟨_, rfl, hmade⟩⟩, ha, ?_⟩
    intro later' request' hmade' hlt
    rcases (madeIn_cons_iff.1 hmade').2 with ⟨rfl, rfl, hdepth⟩ | ⟨rest, rfl, hrest⟩
    · exact h hdepth
    · exact hlast rest request' hrest (Nat.lt_of_succ_lt_succ hlt)

theorem lacks_cons_iff {latest : Request} :
    Lacks (latest :: past) d given ↔ depth (latest :: past) < d ∨
      ((depth past = d → given latest = none) ∧ Lacks past d given) := by
  constructor
  · intro h
    by_cases hle : d ≤ depth (latest :: past)
    · refine .inr ⟨fun hdepth => ?_, fun later request hmade => ?_⟩
      · exact h [] latest (madeIn_cons_iff.2 ⟨hle, .inl ⟨rfl, rfl, hdepth⟩⟩)
      · exact h _ request (madeIn_cons_iff.2 ⟨hle, .inr ⟨later, rfl, hmade⟩⟩)
    · exact .inl (Nat.lt_of_not_le hle)
  · intro h later request hmade
    rcases madeIn_cons_iff.1 hmade with ⟨hle, hcases⟩
    rcases h with hlt | ⟨hlatest, hpast⟩
    · exact absurd hle (Nat.not_le_of_lt hlt)
    · rcases hcases with ⟨-, rfl, hdepth⟩ | ⟨rest, -, hmade⟩
      · exact hlatest hdepth
      · exact hpast rest request hmade

end History

/-- The open scope of a depth, and an empty one where none is open. -/
def level (s : Scopes) (d : Nat) : Scope :=
  s.all.reverse.getD d {}

section

variable {s : Scopes} {α : Type} {g : Scope → Option α} {a : α}

theorem level_of_nil {outermost : Scope} {document : Table Ref} (d : Nat) :
    level ⟨[], outermost, document⟩ d = if d = 0 then outermost else {} := by
  cases d <;> rfl

theorem level_of_cons {scope outermost : Scope} {rest : List Scope} {document : Table Ref}
    (d : Nat) :
    level ⟨scope :: rest, outermost, document⟩ d =
      if d = rest.length + 1 then scope else level ⟨rest, outermost, document⟩ d := by
  have hall : (all ⟨scope :: rest, outermost, document⟩).reverse =
      (all ⟨rest, outermost, document⟩).reverse ++ [scope] := by
    simp [all]
  have hlength : (all ⟨rest, outermost, document⟩).reverse.length = rest.length + 1 := by
    simp [all]
  rw [level, level, hall]
  -- Depths count from the outermost scope, so the innermost one is the last.
  by_cases hd : d = rest.length + 1
  · rw [if_pos hd, List.getD_eq_getElem?_getD, List.getElem?_append_right (by omega), hlength, hd,
      Nat.sub_self]
    rfl
  · rw [if_neg hd, List.getD_eq_getElem?_getD, List.getD_eq_getElem?_getD]
    by_cases hlt : d < rest.length + 1
    · rw [List.getElem?_append_left (hlength ▸ hlt)]
    · rw [List.getElem?_eq_none (by simp [all]; omega), List.getElem?_eq_none (by omega)]

theorem level_of_lt (s : Scopes) {d : Nat} (h : s.bodies.length < d) : s.level d = {} := by
  rw [level, List.getD_eq_getElem?_getD, List.getElem?_eq_none (by simp [all]; omega)]
  rfl

theorem level_open (s : Scopes) (d : Nat) : s.open.level d = s.level d := by
  rw [«open», level_of_cons]
  split
  next hd => rw [level_of_lt s (by omega)]
  · rfl

theorem level_close (s : Scopes) (d : Nat) :
    s.close.level d = if d ≤ s.close.bodies.length then s.level d else {} := by
  split
  next hle =>
    rcases s with ⟨bodies, outermost, document⟩
    cases bodies with
    | nil => rfl
    | cons scope rest =>
        have hne : d ≠ rest.length + 1 := Nat.ne_of_lt (Nat.lt_succ_of_le hle)
        rw [level_of_cons, if_neg hne]
        rfl
  next hlt => exact level_of_lt _ (Nat.lt_of_not_le hlt)

theorem length_bodies_modify (s : Scopes) (f : Scope → Scope) :
    (s.modify f).bodies.length = s.bodies.length := by
  rcases s with ⟨bodies, outermost, document⟩
  cases bodies <;> rfl

/-- A definition changes the innermost scope, which is the deepest one. -/
theorem level_modify (s : Scopes) (f : Scope → Scope) (d : Nat) :
    (s.modify f).level d = if d = s.bodies.length then f (s.level d) else s.level d := by
  rcases s with ⟨bodies, outermost, document⟩
  cases bodies with
  | nil =>
      simp only [modify, level_of_nil, List.length_nil]
      split <;> rfl
  | cons scope rest =>
      simp only [modify, level_of_cons, List.length_cons]
      split <;> rfl

/-- A lookup in the open scopes finds the deepest one that has something. -/
theorem findSome?_all_eq_some_iff (hg : g {} = none) :
    s.all.findSome? g = some a ↔
      ∃ d, g (s.level d) = some a ∧ ∀ inner, d < inner → g (s.level inner) = none := by
  rcases s with ⟨bodies, outermost, document⟩
  induction bodies with
  | nil =>
      have houtermost : ((Scopes.mk [] outermost document).all).findSome? g = g outermost := by
        simp [all]
      rw [houtermost]
      constructor
      · refine fun h => ⟨0, h, fun inner hinner => ?_⟩
        rw [level_of_nil, if_neg (Nat.ne_of_gt hinner), hg]
      · rintro ⟨d, hd, -⟩
        rw [level_of_nil] at hd
        split at hd
        · exact hd
        · rw [hg] at hd
          cases hd
  | cons scope rest ih =>
      have hall : (Scopes.mk (scope :: rest) outermost document).all.findSome? g =
          (g scope).or ((Scopes.mk rest outermost document).all.findSome? g) := by
        simp only [all, List.cons_append, List.findSome?_cons]
        cases g scope <;> rfl
      have hdeeper : ∀ inner, rest.length + 1 < inner →
          g (level ⟨scope :: rest, outermost, document⟩ inner) = none := by
        intro inner hinner
        rw [level_of_lt _ hinner, hg]
      rw [hall]
      cases hscope : g scope with
      | some b =>
          constructor
          · intro h
            refine ⟨rest.length + 1, ?_, hdeeper⟩
            rw [level_of_cons, if_pos rfl, hscope]
            exact h
          · rintro ⟨d, hd, hinner⟩
            -- The scope that was found is not above the deepest one, which has something.
            have hle : rest.length + 1 ≤ d := by
              refine Nat.le_of_not_lt fun hlt => ?_
              have hnone := hinner (rest.length + 1) hlt
              rw [level_of_cons, if_pos rfl, hscope] at hnone
              cases hnone
            have heq : d = rest.length + 1 := by
              refine Nat.le_antisymm (Nat.le_of_not_lt fun hlt => ?_) hle
              rw [hdeeper d hlt] at hd
              cases hd
            rw [heq, level_of_cons, if_pos rfl, hscope] at hd
            exact hd
      | none =>
          rw [Option.none_or, ih]
          have hlevel : ∀ d, g (level ⟨scope :: rest, outermost, document⟩ d) =
              g (level ⟨rest, outermost, document⟩ d) := by
            intro d
            rw [level_of_cons]
            split
            next hd => rw [hscope, level_of_lt _ (by simp [hd]), hg]
            · rfl
          simp only [hlevel]

theorem findSome?_all_eq_none_iff (hg : g {} = none) :
    s.all.findSome? g = none ↔ ∀ d, g (s.level d) = none := by
  constructor
  · intro h d
    have hall := List.findSome?_eq_none_iff.1 h
    by_cases hle : d < s.all.reverse.length
    · refine hall _ (List.mem_reverse.1 ?_)
      rw [level, List.getD_eq_getElem _ _ hle]
      exact List.getElem_mem hle
    · rw [level, List.getD_eq_getElem?_getD, List.getElem?_eq_none (Nat.le_of_not_lt hle)]
      exact hg
  · intro h
    refine List.findSome?_eq_none_iff.2 fun scope hscope => ?_
    rcases List.getElem_of_mem (List.mem_reverse.2 hscope) with ⟨d, hd, hget⟩
    have hlevel := h d
    rw [level, List.getD_eq_getElem _ _ hd, hget] at hlevel
    exact hlevel

end

namespace History

theorem length_bodies (past : History) : past.scopes.bodies.length = past.depth := by
  induction past with
  | nil => rfl
  | cons request past ih =>
      cases request with
      | opens => exact congrArg (· + 1) ih
      | closes =>
          change (scopes past).bodies.tail.length = depth past - 1
          rw [List.length_tail, ih]
      | constant | object | template => exact (length_bodies_modify _ _).trans ih

/-- What a request does to the scope of each depth that is open behind it. -/
theorem level_apply (s : Scopes) (request : Request) (d : Nat) :
    (request.apply s).level d =
      if d ≤ (request.apply s).bodies.length then
        if d = s.bodies.length then request.change (s.level d) else s.level d
      else {} := by
  have hmodify : ∀ f : Scope → Scope, (s.modify f).level d =
      if d ≤ (s.modify f).bodies.length then
        if d = s.bodies.length then f (s.level d) else s.level d
      else {} := by
    intro f
    rw [level_modify, length_bodies_modify]
    by_cases hle : d ≤ s.bodies.length
    · rw [if_pos hle]
    · rw [if_neg hle, if_neg (Nat.ne_of_gt (Nat.lt_of_not_le hle)),
        level_of_lt s (Nat.lt_of_not_le hle)]
  -- A scope that opens is empty, one that closes is gone, and a definition goes to the innermost
  -- one.
  cases request with
  | opens =>
      change s.open.level d = if d ≤ s.bodies.length + 1 then ite _ (s.level d) _ else _
      rw [level_open, ite_self]
      split
      · rfl
      next hlt => exact level_of_lt s (by omega)
  | closes =>
      change s.close.level d = if d ≤ s.close.bodies.length then ite _ (s.level d) _ else _
      rw [ite_self]
      exact level_close s d
  | constant | object | template => exact hmodify _

/-- A kind of definitions of a name, and the table of a scope that keeps them: what is defined takes
    the place of what was there, and other requests change nothing. -/
structure Kind {α : Type} (name : String) (table : Scope → Table α)
    (given : Request → Option α) : Prop where
  empty : (table {}).find? name = none
  change : ∀ (request : Request) (scope : Scope),
    (table (request.change scope)).find? name = (given request).or ((table scope).find? name)

theorem kind_constants (name : String) :
    Kind name Scope.constants (Request.constant? name) where
  empty := rfl
  change request scope := by
    cases request with
    | constant key value =>
        simp only [Request.change, Request.constant?, Table.find?_insert, eq_comm (a := name)]
        split <;> rfl
    | _ => rfl

theorem kind_objects (name : String) : Kind name Scope.objects (Request.object? name) where
  empty := rfl
  change request scope := by
    cases request with
    | object key r =>
        simp only [Request.change, Request.object?, Table.find?_insert, eq_comm (a := name)]
        split <;> rfl
    | _ => rfl

theorem kind_templates (name : String) : Kind name Scope.templates (Request.template? name) where
  empty := rfl
  change request scope := by
    cases request with
    | template key r =>
        simp only [Request.change, Request.template?, Table.find?_insert, eq_comm (a := name)]
        split <;> rfl
    | _ => rfl

/-- The open scope of a depth keeps the last definition that was made in it, if there is one. -/
theorem Kind.find?_level {α : Type} {name : String} {table : Scope → Table α}
    {given : Request → Option α} (hkind : Kind name table given) (past : History) (d : Nat) :
    (∀ a, (table (past.scopes.level d)).find? name = some a ↔ past.LastIn d given a) ∧
      ((table (past.scopes.level d)).find? name = none ↔ past.Lacks d given) := by
  induction past with
  | nil =>
      have hnone : (table ((scopes []).level d)).find? name = none := by
        have hempty : (scopes []).level d = {} := by cases d <;> rfl
        rw [hempty, hkind.empty]
      rw [hnone]
      exact ⟨fun a => iff_of_false (Option.some_ne_none a).symm not_lastIn_nil,
        iff_of_true rfl lacks_nil⟩
  | cons request past ih =>
      have happly := level_apply (scopes past) request d
      rw [show request.apply (scopes past) = scopes (request :: past) from rfl, length_bodies,
        length_bodies] at happly
      by_cases hle : d ≤ depth (request :: past)
      · rw [if_pos hle] at happly
        by_cases hgiven : depth past = d ∧ given request ≠ none
        -- Something is defined in the scope, and hides what was there.
        · rcases Option.ne_none_iff_exists'.1 hgiven.2 with ⟨b, hb⟩
          rw [happly, if_pos hgiven.1.symm, hkind.change, hb, Option.some_or]
          refine ⟨fun a => ?_, iff_of_false (Option.some_ne_none b) fun hlacks => ?_⟩
          · rw [lastIn_cons_of_given hle hgiven.1 hb, Option.some.injEq]
          · rcases lacks_cons_iff.1 hlacks with hlt | ⟨hnone, -⟩
            · exact Nat.not_lt_of_le hle hlt
            · exact hgiven.2 (hnone hgiven.1)
        · have hnot : depth past = d → given request = none := fun hdepth =>
            Decidable.not_not.1 fun hsome => hgiven ⟨hdepth, hsome⟩
          have hsame : (table ((scopes (request :: past)).level d)).find? name =
              (table ((scopes past).level d)).find? name := by
            rw [happly]
            split
            next hdepth => rw [hkind.change, hnot hdepth.symm, Option.none_or]
            · rfl
          rw [hsame]
          refine ⟨fun a => ?_, ?_⟩
          · rw [ih.1, lastIn_cons_of_not_given hnot, and_iff_right hle]
          · rw [ih.2, lacks_cons_iff, or_iff_right (Nat.not_lt_of_le hle), and_iff_right hnot]
      -- The scope is not open any more, if it ever was.
      · rw [happly, if_neg hle, hkind.empty]
        refine ⟨fun a => iff_of_false (Option.some_ne_none a).symm ?_,
          iff_of_true rfl (lacks_cons_iff.2 (.inl (Nat.lt_of_not_le hle)))⟩
        rintro ⟨later, r, hmade, -⟩
        exact hle (madeIn_cons_iff.1 hmade).1

/-- The document keeps the last object of a name that was ever defined. -/
theorem find?_document (past : History) (name : String) :
    past.scopes.document.find? name = past.findSome? (Request.object? name) := by
  induction past with
  | nil => rfl
  | cons request past ih =>
      rw [List.findSome?_cons]
      -- Only objects are kept in the document, and no closing takes them away.
      cases request with
      | opens | closes => exact ih
      | constant | template =>
          refine Eq.trans ?_ ih
          change (Scopes.modify _ _).document.find? name = _
          unfold Scopes.modify
          split <;> rfl
      | object key r =>
          change ((scopes past).document.insert key r).find? name = _
          rw [Table.find?_insert]
          by_cases hkey : key = name
          · rw [if_pos hkey.symm, Request.object?, if_pos hkey]
          · rw [if_neg (Ne.symm hkey), Request.object?, if_neg hkey]
            exact ih

/-- What a name stands for, behind anything that scopes can have been asked. A constant is the last
    one that was defined in the innermost open scope that has one. An object is looked for in the
    innermost open scope that has an object or a template of the name, and there it is the last
    object, or the last template if there is no object; if no open scope has any, it is the last
    object that was ever defined. A template is the last one of the innermost open scope that has
    one, whatever objects there are, and otherwise it is the object. -/
theorem lookups_agree (past : History) (name : String) :
    (∀ value, past.scopes.constant? name = some value ↔
      ∃ d, past.LastIn d (Request.constant? name) value ∧
        ∀ inner, d < inner → past.Lacks inner (Request.constant? name)) ∧
    (∀ r, past.scopes.resolve? name = some r ↔
      (∃ d, (past.LastIn d (Request.object? name) r ∨
          past.Lacks d (Request.object? name) ∧ past.LastIn d (Request.template? name) r) ∧
        ∀ inner, d < inner →
          past.Lacks inner (Request.object? name) ∧ past.Lacks inner (Request.template? name)) ∨
      (∀ d, past.Lacks d (Request.object? name) ∧ past.Lacks d (Request.template? name)) ∧
        past.findSome? (Request.object? name) = some r) ∧
    (∀ r, past.scopes.template? name = some r ↔
      (∃ d, past.LastIn d (Request.template? name) r ∧
        ∀ inner, d < inner → past.Lacks inner (Request.template? name)) ∨
      (∀ d, past.Lacks d (Request.template? name)) ∧ past.scopes.resolve? name = some r) := by
  have hconstants := (kind_constants name).find?_level past
  have hobjects := (kind_objects name).find?_level past
  have htemplates := (kind_templates name).find?_level past
  -- Each look-up asks one table of each open scope, or two of them, from the inside out.
  refine ⟨fun value => ?_, fun r => ?_, fun r => ?_⟩
  · rw [constant?, findSome?_all_eq_some_iff rfl]
    simp only [(hconstants _).1, (hconstants _).2]
  · rw [resolve?, Option.or_eq_some_iff, findSome?_all_eq_some_iff rfl,
      findSome?_all_eq_none_iff rfl, find?_document]
    simp only [Option.or_eq_some_iff, Option.or_eq_none_iff, (hobjects _).1, (hobjects _).2,
      (htemplates _).1, (htemplates _).2]
  · rw [template?, Option.or_eq_some_iff, findSome?_all_eq_some_iff rfl,
      findSome?_all_eq_none_iff rfl]
    simp only [(htemplates _).1, (htemplates _).2]

end History

end Scopes

end GraphText

import GraphText.Registry
import Mathlib.Data.List.Perm.Subperm
import Mathlib.Logic.Relation

/-!
# Chains of bases

When the search for a type among the bases of another one comes to an end. Each
of its steps goes from a type to its base, and stops at the type that is looked
for. A base is a name and no more: it may be registered later, earlier or never,
and it may lead back to where the chain has been. So the steps may run in a
circle, and then they go on forever; `circled` is the smallest such registry.

Nothing else keeps the search from ending. Types that are met are registered,
except for the last, and those of a search without a circle are different, so it
has ended when there are no types left. That is why a search that is not over
after as many steps as there are types, and one more, never will be.

## Main definitions

* `Registry.Climbs`: one step of the search.
* `Registry.Circles`: a search that comes to a circle.
* `Registry.HasEnds`: every chain of bases ends.
* `Registry.Change`, `Registry.ofChanges`: the registries that can be made.

## Theorems

* `Registry.walk_isSome_of_not_circles`: how long a search without a circle is.
* `Registry.walk_eq_none_of_circles`: on a circle it never ends.
* `Registry.walk_ends_iff`: the search ends unless it comes to a circle.
* `Registry.walk_isSome_of_hasEnds`: with chains that end it is always decided.
-/

namespace GraphText.Registry

/-- The search for a type goes on from one type to another. -/
def Climbs (reg : Registry) (target name parent : String) : Prop :=
  name ≠ target ∧ reg.baseOf? name = some parent

/-- The search for a type comes to a type from which it comes back to it. -/
def Circles (reg : Registry) (target name : String) : Prop :=
  ∃ x, Relation.ReflTransGen (reg.Climbs target) name x ∧ Relation.TransGen (reg.Climbs target) x x

/-- The bases of every type come to an end. -/
def HasEnds (reg : Registry) : Prop :=
  ∀ name, ∃ top, Relation.ReflTransGen (fun x parent => reg.baseOf? x = some parent) name top ∧
    reg.baseOf? top = none

/-- What can be done to a registry. -/
inductive Change where
  | add (spec : ObjectSpec)
  | clear

/-- The registry behind a change. A type that cannot be added leaves it as it was. -/
def change (reg : Registry) : Change → Registry
  | .add spec => (reg.add spec).toOption.getD reg
  | .clear => empty

/-- The registry that some changes make. -/
def ofChanges (changes : List Change) : Registry :=
  changes.foldl change empty

section

variable {reg : Registry} {target name parent : String} {n : Nat}

/-- A type with a base is registered. -/
theorem mem_typeName_of_baseOf? (h : reg.baseOf? name = some parent) :
    name ∈ reg.specs.map ObjectSpec.typeName := by
  rcases Option.bind_eq_some_iff.1 h with ⟨spec, hspec, -⟩
  have hname := List.find?_some hspec
  rw [decide_eq_true_eq] at hname
  exact List.mem_map.2 ⟨spec, List.mem_of_find?_eq_some hspec, hname⟩

theorem walk_of_climbs (h : reg.Climbs target name parent) :
    reg.walk target (n + 1) name = reg.walk target n parent := by
  rw [walk, if_neg h.1, h.2]

/-- A search that is decided was decided by its next step or goes one step on. -/
theorem walk_succ_cases (reg : Registry) (target : String) (n : Nat) (name : String) :
    (∃ answer, reg.walk target (n + 1) name = some answer) ∨
      ∃ parent, reg.Climbs target name parent := by
  by_cases hname : name = target
  · exact .inl ⟨true, by rw [walk, if_pos hname]⟩
  · cases hbase : reg.baseOf? name with
    | none => exact .inl ⟨false, by rw [walk, if_neg hname, hbase]⟩
    | some parent => exact .inr ⟨parent, hname, hbase⟩

/-- The search behind types that have been met, each of which leads on to where it is now. They are
    registered and different, so with them in sight there are enough steps left to end it. -/
theorem walk_isSome_of_met (met : List String) (hnodup : met.Nodup)
    (hregistered : met ⊆ reg.specs.map ObjectSpec.typeName)
    (hmet : ∀ x ∈ met, Relation.TransGen (reg.Climbs target) x name)
    (hsteps : n + met.length = reg.specs.length + 1) (hcircle : ¬ reg.Circles target name) :
    (reg.walk target n name).isSome = true := by
  induction n generalizing name met with
  | zero =>
      -- There are more of them than there are types.
      have hle := (List.subperm_of_subset hnodup hregistered).length_le
      rw [List.length_map] at hle
      omega
  | succ n ih =>
      rcases walk_succ_cases reg target n name with ⟨answer, hanswer⟩ | ⟨parent, hclimbs⟩
      · rw [hanswer]
        rfl
      · rw [walk_of_climbs hclimbs]
        have hnew : name ∉ met := fun hmem => hcircle ⟨name, .refl, hmet name hmem⟩
        refine ih (name :: met) (List.nodup_cons.2 ⟨hnew, hnodup⟩) ?_ ?_ ?_ ?_
        · exact List.cons_subset.2 ⟨mem_typeName_of_baseOf? hclimbs.2, hregistered⟩
        · intro x hx
          rcases List.mem_cons.1 hx with rfl | hx
          · exact .single hclimbs
          · exact (hmet x hx).tail hclimbs
        · rw [List.length_cons]
          omega
        · rintro ⟨x, hx, hcycle⟩
          exact hcircle ⟨x, hx.head hclimbs, hcycle⟩

/-- A search that does not come to a circle has ended when there are no types left. -/
theorem walk_isSome_of_not_circles (h : ¬ reg.Circles target name) :
    (reg.walk target (reg.specs.length + 1) name).isSome = true :=
  walk_isSome_of_met [] List.nodup_nil (List.nil_subset _) (by simp) rfl h

/-- A search on its way to a circle goes on, and is on its way to it still. -/
theorem exists_climbs_of_circles (h : reg.Circles target name) :
    ∃ parent, reg.Climbs target name parent ∧ reg.Circles target parent := by
  rcases h with ⟨x, hx, hcycle⟩
  rcases Relation.ReflTransGen.cases_head_iff.1 hx with rfl | ⟨parent, hclimbs, hparent⟩
  · rcases Relation.TransGen.head'_iff.1 hcycle with ⟨parent, hclimbs, hback⟩
    exact ⟨parent, hclimbs, name, hback, hcycle⟩
  · exact ⟨parent, hclimbs, x, hparent, hcycle⟩

/-- A search that comes to a circle never ends. -/
theorem walk_eq_none_of_circles (h : reg.Circles target name) (n : Nat) :
    reg.walk target n name = none := by
  induction n generalizing name with
  | zero => rfl
  | succ n ih =>
      rcases exists_climbs_of_circles h with ⟨parent, hclimbs, hparent⟩
      rw [walk_of_climbs hclimbs]
      exact ih hparent

/-- A search that is decided stays so when it may go further. -/
theorem walk_of_le {m : Nat} {answer : Bool} (h : reg.walk target n name = some answer)
    (hle : n ≤ m) : reg.walk target m name = some answer := by
  induction n generalizing name m with
  | zero => cases h
  | succ n ih =>
      rcases Nat.exists_eq_succ_of_ne_zero (by omega : m ≠ 0) with ⟨m, rfl⟩
      rw [walk] at h ⊢
      split at h
      next hname => rw [if_pos hname, ← h]
      next hname =>
        rw [if_neg hname]
        cases hbase : reg.baseOf? name with
        | none => simpa [hbase] using h
        | some parent =>
            rw [hbase] at h
            exact ih h (by omega)

/-- A search that is not over when there are no types left never is. -/
theorem walk_isSome_of_eq_some {answer : Bool} (h : reg.walk target n name = some answer) :
    (reg.walk target (reg.specs.length + 1) name).isSome = true :=
  walk_isSome_of_not_circles fun hcircle => by
    rw [walk_eq_none_of_circles hcircle] at h
    cases h

/-- Where bases come to an end, so does every search among them. -/
theorem walk_isSome_of_hasEnds (h : reg.HasEnds) (target name : String) :
    (reg.walk target (reg.specs.length + 1) name).isSome = true := by
  rcases h name with ⟨top, hchain, htop⟩
  -- Along the chain to its end there is always enough fuel; the number of types is enough if any
  -- fuel is.
  have hends : ∃ n answer, reg.walk target n name = some answer := by
    induction hchain using Relation.ReflTransGen.head_induction_on with
    | refl =>
        rcases walk_succ_cases reg target 0 top with ⟨answer, hanswer⟩ | ⟨parent, hclimbs⟩
        · exact ⟨1, answer, hanswer⟩
        · rw [hclimbs.2] at htop
          cases htop
    | @head x parent hbase _ ih =>
        rcases ih with ⟨n, answer, hanswer⟩
        by_cases hx : x = target
        · exact ⟨1, true, by rw [walk, if_pos hx]⟩
        · have hclimbs : reg.Climbs target x parent := ⟨hx, hbase⟩
          exact ⟨n + 1, answer, (walk_of_climbs hclimbs).trans hanswer⟩
  rcases hends with ⟨n, answer, hanswer⟩
  exact walk_isSome_of_eq_some hanswer

end

/-- The search for a type among the bases of another one ends unless it comes to a circle. So in any
    registry that can be made, what keeps it from ending is a chain of bases that leads back to a
    type of its own without having met what is looked for. -/
theorem walk_ends_iff (changes : List Change) (name target : String) :
    (∃ n answer, (ofChanges changes).walk target n name = some answer) ↔
      ¬ (ofChanges changes).Circles target name := by
  constructor
  · rintro ⟨n, answer, hanswer⟩ hcircle
    rw [walk_eq_none_of_circles hcircle] at hanswer
    cases hanswer
  · intro hcircle
    exact ⟨_, Option.isSome_iff_exists.1 (walk_isSome_of_not_circles hcircle)⟩

/-- A type that is its own base. -/
def circled : List Change := [.add { typeName := "A", base := some "A" }]

/-- Not every search ends: a type can be registered with itself as its base. -/
theorem walk_endless :
    ¬ ∀ (changes : List Change) (name target : String),
      ∃ n answer, (ofChanges changes).walk target n name = some answer := by
  intro hends
  have hclimbs : (ofChanges circled).Climbs "B" "A" "A" := by
    unfold Climbs
    decide
  rcases hends circled "A" "B" with ⟨n, answer, hanswer⟩
  rw [walk_eq_none_of_circles ⟨"A", .refl, .single hclimbs⟩] at hanswer
  cases hanswer

end GraphText.Registry

import GraphText.Proofs.Registry.Bases
import GraphText.Proofs.Registry.Valid
import Mathlib.Data.List.DropRight
import Mathlib.Data.List.Nodup

/-!
# Registries and what was done to them

A registry is made by adding types and by clearing it. Adding a type can fail,
and then nothing happens; so which types there are is a matter of all that was
done, in its order. What is found under a name can be told from that alone: of
the types that were to be added since the registry was last cleared, the first
one of this name whose field list is one that a type may have. Whether any of
the others was added does not come into it, since no other name is touched.

All of it follows from what one addition does, which has three ways to go. The
name is looked at before the fields are, so a type with a bad field list under a
name that is taken fails because of its name.

## Main definitions

* `Registry.sinceCleared`: the types that were to be added since the last clearing.
* `Registry.IsKept`: types with different names, all of them sound.

## Theorems

* `Registry.add_cases`: the three ways in which an addition goes.
* `Registry.find?_change_add`, `Registry.isKept_change`: what one change does.
* `Registry.find?_ofChanges`, `Registry.isKept_ofChanges`: what is so behind any changes.
* `Registry.history_decides`: all of this about the registries that can be made.
-/

namespace GraphText.Registry

/-- Whether a change is one that adds, or tries to. -/
def Change.isAdd : Change → Bool
  | .add _ => true
  | .clear => false

/-- The type that was to be added. -/
def Change.spec? : Change → Option ObjectSpec
  | .add spec => some spec
  | .clear => none

/-- The types that were to be added since the registry was last cleared, in order. -/
def sinceCleared (changes : List Change) : List ObjectSpec :=
  (changes.rtakeWhile Change.isAdd).filterMap Change.spec?

/-- The types in the registry have different names and field lists that types may have. -/
structure IsKept (reg : Registry) : Prop where
  distinct : (reg.specs.map ObjectSpec.typeName).Nodup
  sound : ∀ spec ∈ reg.specs, spec.IsSound

variable {reg reg' : Registry} {spec : ObjectSpec} {name : String} {changes : List Change}

/-- An addition fails because the name is taken, or because of the field list if the name is free,
    or else puts the type behind the others. -/
theorem add_cases (reg : Registry) (spec : ObjectSpec) :
    (reg.contains spec.typeName = true ∧
        reg.add spec = .error (.duplicateType spec.typeName)) ∨
      (reg.contains spec.typeName = false ∧ ¬ spec.IsSound ∧
        ∃ cause, reg.add spec = .error cause ∧ cause.kind = .invalidSpec) ∨
      (reg.contains spec.typeName = false ∧ spec.IsSound ∧
        reg.add spec = .ok ⟨reg.specs ++ [spec]⟩) := by
  by_cases htaken : reg.contains spec.typeName = true
  · exact .inl ⟨htaken, if_pos htaken⟩
  · have hfree : reg.contains spec.typeName = false := by simpa using htaken
    refine .inr ?_
    rw [add, if_neg htaken]
    -- The name is free, so the check of the field list decides.
    cases hflaw : spec.flaw? with
    | some cause =>
        refine .inl ⟨hfree, fun hsound => ?_, cause, rfl, ObjectSpec.kind_of_fieldsFlaw? hflaw⟩
        rw [ObjectSpec.flaw?_eq_none_iff.2 hsound] at hflaw
        cases hflaw
    | none => exact .inr ⟨hfree, ObjectSpec.flaw?_eq_none_iff.1 hflaw, rfl⟩

theorem change_of_error {cause : Cause} (h : reg.add spec = .error cause) :
    reg.change (.add spec) = reg := by
  rw [change, h]
  rfl

theorem change_of_ok (h : reg.add spec = .ok reg') : reg.change (.add spec) = reg' := by
  rw [change, h]
  rfl

/-- After an addition there is what was there before, and under a name that was free the type that
    was added. -/
theorem find?_change_add (reg : Registry) (spec : ObjectSpec) (name : String) :
    (reg.change (.add spec)).find? name =
      (reg.find? name).or (if spec.typeName = name ∧ spec.IsSound then some spec else none) := by
  rcases add_cases reg spec with ⟨htaken, hadd⟩ | ⟨-, hsound, cause, hadd, -⟩ | ⟨-, hsound, hadd⟩
  · rw [change_of_error hadd]
    by_cases hname : spec.typeName = name
    · rw [contains, hname, Option.isSome_iff_exists] at htaken
      rcases htaken with ⟨old, hold⟩
      rw [hold, Option.some_or]
    · rw [if_neg fun h => hname h.1, Option.or_none]
  · rw [change_of_error hadd, if_neg fun h => hsound h.2, Option.or_none]
  · rw [change_of_ok hadd, find?, List.find?_append, List.find?_singleton]
    simp [find?, hsound]

theorem ofChanges_append (changes : List Change) (change : Change) :
    ofChanges (changes ++ [change]) = (ofChanges changes).change change := by
  rw [ofChanges, List.foldl_append]
  rfl

theorem sinceCleared_add (changes : List Change) (spec : ObjectSpec) :
    sinceCleared (changes ++ [.add spec]) = sinceCleared changes ++ [spec] := by
  rw [sinceCleared, List.rtakeWhile_concat_pos _ _ _ rfl, List.filterMap_append]
  rfl

theorem sinceCleared_clear (changes : List Change) :
    sinceCleared (changes ++ [.clear]) = [] := by
  rw [sinceCleared, List.rtakeWhile_concat_neg _ _ _ Bool.false_ne_true]
  rfl

/-- What is found under a name is the first type of this name that was to be added since the
    registry was last cleared, of those with a field list that a type may have. -/
theorem find?_ofChanges (changes : List Change) (name : String) :
    (ofChanges changes).find? name =
      (sinceCleared changes).find? fun spec => spec.typeName = name ∧ spec.IsSound := by
  induction changes using List.reverseRecOn with
  | nil => rfl
  | append_singleton changes last ih =>
      rw [ofChanges_append]
      cases last with
      | clear =>
          rw [sinceCleared_clear]
          rfl
      | add spec =>
          rw [find?_change_add, ih, sinceCleared_add, List.find?_append, List.find?_singleton]
          simp

theorem contains_iff : reg.contains name = true ↔ name ∈ reg.specs.map ObjectSpec.typeName := by
  rw [contains, find?, List.find?_isSome]
  simp

/-- Every type in the registry is what is found under its name. -/
theorem IsKept.found (h : reg.IsKept) (hspec : spec ∈ reg.specs) :
    reg.find? spec.typeName = some spec :=
  find?_of_nodup h.distinct hspec

/-- An addition puts a type into the registry under a name that was free, and clearing leaves
    nothing that could be wrong. -/
theorem isKept_change (h : reg.IsKept) (change : Change) : (reg.change change).IsKept := by
  cases change with
  | clear => exact ⟨List.nodup_nil, nofun⟩
  | add spec =>
      rcases add_cases reg spec with ⟨-, hadd⟩ | ⟨-, -, cause, hadd, -⟩ | ⟨hfree, hsound, hadd⟩
      · rw [change_of_error hadd]
        exact h
      · rw [change_of_error hadd]
        exact h
      · rw [change_of_ok hadd]
        -- The name was free, so the names stay distinct.
        have hnew : spec.typeName ∉ reg.specs.map ObjectSpec.typeName := fun hmem =>
          Bool.false_ne_true (hfree.symm.trans (contains_iff.2 hmem))
        constructor
        · rw [List.map_append, List.map_singleton, ← List.concat_eq_append, List.nodup_concat]
          exact ⟨hnew, h.distinct⟩
        · intro other hother
          rcases List.mem_append.1 hother with hold | hnew
          · exact h.sound other hold
          · exact List.mem_singleton.1 hnew ▸ hsound

/-- Whatever is done to a registry, the types in it have different names and field lists that types
    may have. -/
theorem isKept_ofChanges (changes : List Change) : (ofChanges changes).IsKept := by
  induction changes using List.reverseRecOn with
  | nil => exact ⟨List.nodup_nil, nofun⟩
  | append_singleton changes last ih =>
      rw [ofChanges_append]
      exact isKept_change ih last

/-- What is in the registry stays there until it is cleared. -/
theorem find?_of_not_cleared (h : (ofChanges changes).find? name = some spec)
    {later : List Change} (hlater : .clear ∉ later) :
    (ofChanges (changes ++ later)).find? name = some spec := by
  induction later using List.reverseRecOn with
  | nil =>
      rw [List.append_nil]
      exact h
  | append_singleton later last ih =>
      rw [← List.append_assoc, ofChanges_append]
      have hold := ih fun hmem => hlater (List.mem_append_left _ hmem)
      cases last with
      | clear => exact absurd (List.mem_append_right _ List.mem_cons_self) hlater
      | add other => rw [find?_change_add, hold, Option.some_or]

theorem mem_typeNames_iff : name ∈ reg.typeNames ↔ reg.contains name = true := by
  rw [typeNames, List.mem_mergeSort, contains_iff]

/-- The names are in ascending order, each of them once. -/
theorem IsKept.ascending (h : reg.IsKept) : reg.typeNames.Pairwise (· < ·) := by
  have hsorted : reg.typeNames.Pairwise fun a b => decide (a ≤ b) = true := by
    refine List.pairwise_mergeSort ?_ ?_ _
    · intro a b c hab hbc
      simp only [decide_eq_true_eq] at hab hbc ⊢
      exact String.le_trans hab hbc
    · intro a b
      simpa using String.le_total a b
  have hnodup : reg.typeNames.Nodup := (List.mergeSort_perm _ _).nodup_iff.2 h.distinct
  refine (hsorted.and hnodup).imp fun {a b} hab => ?_
  by_contra hlt
  exact hab.2 (String.le_antisymm (of_decide_eq_true hab.1) (String.not_lt.1 hlt))

/-- Whatever is done to a registry, beginning with none: every type in it is what is found under its
    name and has a field list that a type may have. What is found under a name is the first such
    type of this name that was to be added since the registry was last cleared, and it is found
    there until the registry is cleared again. An addition fails because of the name exactly if the
    name is taken, because of the field list exactly if the name is free and the list is not one
    that a type may have, and otherwise not at all; and when it fails everything is as it was. The
    names that are listed are those of the types, each of them once and in ascending order. -/
theorem history_decides (changes : List Change) :
    let reg := ofChanges changes
    (∀ spec ∈ reg.specs, reg.find? spec.typeName = some spec ∧ spec.IsSound) ∧
    (∀ name, reg.find? name =
      (sinceCleared changes).find? fun spec => spec.typeName = name ∧ spec.IsSound) ∧
    (∀ name spec later, reg.find? name = some spec → .clear ∉ later →
      (ofChanges (changes ++ later)).find? name = some spec) ∧
    (∀ spec,
      ((∃ cause, reg.add spec = .error cause ∧ cause.kind = .duplicateType) ↔
        reg.contains spec.typeName = true) ∧
      ((∃ cause, reg.add spec = .error cause ∧ cause.kind = .invalidSpec) ↔
        reg.contains spec.typeName = false ∧ ¬ spec.IsSound) ∧
      ((∃ reg', reg.add spec = .ok reg') ↔
        reg.contains spec.typeName = false ∧ spec.IsSound) ∧
      ∀ cause, reg.add spec = .error cause → ofChanges (changes ++ [.add spec]) = reg) ∧
    (∀ name, name ∈ reg.typeNames ↔ ∃ spec, reg.find? name = some spec) ∧
    reg.typeNames.Pairwise (· < ·) := by
  intro reg
  have hkept : reg.IsKept := isKept_ofChanges changes
  refine ⟨fun spec hspec => ⟨hkept.found hspec, hkept.sound spec hspec⟩, find?_ofChanges changes,
    fun name spec later hfind hlater => find?_of_not_cleared hfind hlater, fun spec => ?_,
    fun name => ?_, hkept.ascending⟩
  · rw [ofChanges_append]
    -- An addition finds the name taken, or the field list flawed, or succeeds.
    rcases add_cases reg spec with ⟨htaken, hadd⟩ | ⟨hfree, hbad, flaw, hadd, hkind⟩ |
      ⟨hfree, hsound, hadd⟩
    · simpa [hadd, htaken, Cause.kind] using change_of_error hadd
    · simpa [hadd, hfree, hbad, hkind] using change_of_error hadd
    · simp [hadd, hfree, hsound]
  · rw [mem_typeNames_iff, contains, Option.isSome_iff_exists]

end GraphText.Registry

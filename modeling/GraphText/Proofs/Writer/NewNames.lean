import GraphText.Proofs.Writer.Names
import Mathlib.Data.Nat.Find
import Mathlib.Order.Bounds.Basic

/-!
# New names

A new name is found by trying the numbers of a base, one after another, until one
makes a name that is not taken. The search has no last number of its own. It ends
because different numbers make different names: each number that is tried in vain
uses up a taken name, and there are only so many of them.

A name that is found is taken from then on. So no two searches find the same name,
and none finds a name that was taken at the start. What the bases look like does not
matter. The first name for `A_1` may be written like a later name for `A`, but it was
tried for only one of them while it was free.

The names that a survey gives anew are those of such searches, one for each object
that is renamed, in the order of the objects.

## Main definitions

* `freeNumbers`: the numbers that make a free name from a base.
* `Seeks`: a search from a number on, with its rounds and its result.
* `freshNames`: the names that are found for some bases, one after another.
* `newBase?`: the base from which an object is renamed.

## Theorems

* `seeks_iff`: what a search finds, and after how many rounds.
* `freshName_eq_of_isLeast`: a new name has the least number that is free.
* `freshNames_not_mem`, `nodup_freshNames`: new names differ from taken ones and each other.
* `new_chooseNames`: the new names of a survey.
* `newNames_distinct`: all of this together.
-/

namespace GraphText.Writer

/-- The numbers that make a free name from a base. -/
def freeNumbers (base : String) (taken : List String) : Set Nat :=
  {n | 1 ≤ n ∧ numbered base n ∉ taken}

/-- A search from a number on: how many rounds there are, which name is found, and which names are
    taken then. -/
inductive Seeks (base : String) (taken : List String) : Nat → Nat → String → List String → Prop
  | found {n : Nat} (hfree : numbered base n ∉ taken) :
      Seeks base taken n 1 (numbered base n) (numbered base n :: taken)
  | next {n rounds : Nat} {name : String} {after : List String}
      (htaken : numbered base n ∈ taken) (hrest : Seeks base taken (n + 1) rounds name after) :
      Seeks base taken n (rounds + 1) name after

section

variable {base : String} {taken : List String}

/-- A search goes through taken names up to the first free one. -/
theorem seeks_iff {start rounds : Nat} {name : String} {after : List String} :
    Seeks base taken start rounds name after ↔
      ∃ count, rounds = count + 1 ∧ (∀ m < count, numbered base (start + m) ∈ taken) ∧
        numbered base (start + count) ∉ taken ∧ name = numbered base (start + count) ∧
        after = name :: taken := by
  constructor
  · intro hseeks
    -- A failed round moves the start on by one, so the numbers that were tried before move by one
    -- as well.
    induction hseeks with
    | found hfree => exact ⟨0, rfl, fun m hm => absurd hm (Nat.not_lt_zero m), hfree, rfl, rfl⟩
    | next htaken hrest ih =>
        rename_i n rounds name after
        rcases ih with ⟨count, hrounds, hvain, hfree, hname, hafter⟩
        have hshift : n + (count + 1) = n + 1 + count := by omega
        refine ⟨count + 1, by rw [hrounds], fun m hm => ?_, hshift ▸ hfree, hshift ▸ hname, hafter⟩
        rcases m with _ | m
        · exact htaken
        · have hmem := hvain m (by omega)
          rwa [Nat.add_assoc, Nat.add_comm 1 m] at hmem
  · rintro ⟨count, rfl, hvain, hfree, rfl, rfl⟩
    induction count generalizing start with
    | zero => exact .found hfree
    | succ count ih =>
        have hshift : start + (count + 1) = start + 1 + count := by omega
        rw [hshift] at hfree ⊢
        refine .next (hvain 0 (by omega)) (ih (fun m hm => ?_) hfree)
        have hmem := hvain (m + 1) (by omega)
        rwa [Nat.add_comm m 1, ← Nat.add_assoc] at hmem

/-- Some number makes a free name. -/
theorem exists_isLeast_freeNumbers (base : String) (taken : List String) :
    ∃ n, IsLeast (freeNumbers base taken) n := by
  classical
  have hfree : ∃ n, n ∈ freeNumbers base taken := by
    rcases exists_candidate base taken with ⟨n, -, hn⟩
    exact ⟨n + 1, Nat.le_add_left 1 n, hn⟩
  exact ⟨Nat.find hfree, Nat.find_spec hfree, fun m hm => Nat.find_min' hfree hm⟩

/-- The names with lower numbers are taken. -/
theorem mem_of_isLeast {n : Nat} (hleast : IsLeast (freeNumbers base taken) n) {m : Nat}
    (hpos : 1 ≤ m) (hlt : m < n) : numbered base m ∈ taken := by
  refine Decidable.byContradiction fun hfree => ?_
  have hle : n ≤ m := hleast.2 ⟨hpos, hfree⟩
  omega

/-- The least number that is free comes at latest behind as many as names are taken. -/
theorem le_card_of_isLeast {n : Nat} (hleast : IsLeast (freeNumbers base taken) n) :
    n ≤ taken.toFinset.card + 1 := by
  have hcount : n - 1 ≤ taken.toFinset.card :=
    le_card_of_taken fun m hm => mem_of_isLeast hleast (Nat.le_add_right 1 m) (by omega)
  omega

/-- A search from one on finds the least number that is free, in as many rounds. -/
theorem seeks_iff_of_isLeast {n rounds : Nat} {name : String} {after : List String}
    (hleast : IsLeast (freeNumbers base taken) n) :
    Seeks base taken 1 rounds name after ↔
      rounds = n ∧ name = numbered base n ∧ after = numbered base n :: taken := by
  have hpos : 1 ≤ n := hleast.1.1
  rw [seeks_iff]
  constructor
  · rintro ⟨count, rfl, hvain, hfree, rfl, rfl⟩
    have hle : n ≤ 1 + count := hleast.2 ⟨Nat.le_add_right 1 count, hfree⟩
    -- Had the search gone past the least free number, it would have found it taken.
    have hge : 1 + count ≤ n := by
      refine Nat.le_of_not_lt fun hlt => hleast.1.2 ?_
      have hmem := hvain (n - 1) (by omega)
      rwa [Nat.add_sub_cancel' hpos] at hmem
    have heq : 1 + count = n := Nat.le_antisymm hge hle
    exact ⟨by omega, by rw [heq], by rw [heq]⟩
  · rintro ⟨rfl, rfl, rfl⟩
    have hshift : 1 + (rounds - 1) = rounds := Nat.add_sub_cancel' hpos
    refine ⟨rounds - 1, by omega, fun m hm => ?_, ?_, by rw [hshift], rfl⟩
    · exact mem_of_isLeast hleast (Nat.le_add_right 1 m) (by omega)
    · rw [hshift]
      exact hleast.1.2

/-- A new name has the least number that is free. -/
theorem freshName_eq_of_isLeast {n : Nat} (hleast : IsLeast (freeNumbers base taken) n) :
    freshName base taken = numbered base n := by
  have hpos : 1 ≤ n := hleast.1.1
  have hshift : n - 1 + 1 = n := Nat.sub_add_cancel hpos
  have hlen : n - 1 < taken.length + 1 := by
    have hle := le_card_of_isLeast hleast
    have hcard := List.toFinset_card_le taken
    omega
  have hfind : (List.range (taken.length + 1)).find?
      ((fun name => !taken.contains name) ∘ fun m => numbered base (m + 1)) = some (n - 1) := by
    rw [List.find?_range_eq_some]
    refine ⟨?_, List.mem_range.2 hlen, fun m hm => ?_⟩
    · simpa [hshift] using hleast.1.2
    · simpa using mem_of_isLeast hleast (Nat.le_add_left 1 m) (by omega)
  rw [freshName, List.find?_map, hfind]
  exact congrArg (numbered base) hshift

end

/-- The names that are found for some bases, each taken for the ones behind it. -/
def freshNames (taken : List String) : List String → List String
  | [] => []
  | base :: bases => freshName base taken :: freshNames (freshName base taken :: taken) bases

example : freshNames ["A_1_1"] ["A", "A_1", "A_1_1"] = ["A_1", "A_1_2", "A_1_1_1"] := by
  decide +kernel

section

variable {taken bases : List String}

theorem freshNames_not_mem {name : String} (hname : name ∈ freshNames taken bases) :
    name ∉ taken := by
  induction bases generalizing taken with
  | nil => cases hname
  | cons base bases ih =>
      rcases List.mem_cons.1 hname with rfl | hrest
      · exact freshName_not_mem base taken
      · exact fun hmem => ih hrest (List.mem_cons_of_mem _ hmem)

theorem nodup_freshNames : (freshNames taken bases).Nodup := by
  induction bases generalizing taken with
  | nil => exact List.nodup_nil
  | cons base bases ih =>
      -- The first name is among those that are taken for the others.
      exact List.nodup_cons.2 ⟨fun hmem => freshNames_not_mem hmem List.mem_cons_self, ih⟩

end

/-- The base from which an object is renamed, if it is: the name that it has, or else its type. -/
def newBase? (h : Heap) (isShared : Ref → Bool) (owners : String → Nat) (r : Ref) :
    Option String :=
  match (h.get r).name, isShared r with
  | some name, true => if owners name = 1 then none else some name
  | none, true => some (h.get r).typeName
  | _, false => none

section

variable {h : Heap} {isShared : Ref → Bool} {owners : String → Nat} {taken : List String}
  {r : Ref} (rs : List Ref)

theorem chooseNames_of_new {base : String} (hbase : newBase? h isShared owners r = some base) :
    chooseNames h isShared owners taken (r :: rs) =
      (r, freshName base taken) :: chooseNames h isShared owners (freshName base taken :: taken)
        rs := by
  rw [chooseNames]
  unfold newBase? at hbase
  split at hbase
  next name hname hshared =>
    by_cases hone : owners name = 1
    · simp [hone] at hbase
    · rw [if_neg hone, Option.some.injEq] at hbase
      subst hbase
      simp only [hname, hshared, if_neg hone]
  next hname hshared =>
    rw [Option.some.injEq] at hbase
    simp only [hname, hshared, hbase]
  next => cases hbase

theorem chooseNames_of_old (hbase : newBase? h isShared owners r = none) :
    chooseNames h isShared owners taken (r :: rs) =
      ((h.get r).name.map (r, ·)).toList ++ chooseNames h isShared owners taken rs := by
  rw [chooseNames]
  unfold newBase? at hbase
  cases hname : (h.get r).name with
  | none =>
      cases hshared : isShared r with
      | true => simp [hname, hshared] at hbase
      | false => rfl
  | some name =>
      cases hshared : isShared r with
      | true =>
          have hone : owners name = 1 := by simpa [hname, hshared] using hbase
          simp [hone]
      | false => rfl

/-- The new names of a survey are found one after another, from the bases of the objects. -/
theorem new_chooseNames :
    ((chooseNames h isShared owners taken rs).filter fun entry =>
        (newBase? h isShared owners entry.1).isSome).map Prod.snd =
      freshNames taken (rs.filterMap (newBase? h isShared owners)) := by
  induction rs generalizing taken with
  | nil => rfl
  | cons r rs ih =>
      cases hbase : newBase? h isShared owners r with
      | some base =>
          rw [chooseNames_of_new rs hbase, List.filterMap_cons_some hbase,
            List.filter_cons_of_pos (by rw [hbase]; rfl), List.map_cons, ih]
          rfl
      | none =>
          rw [chooseNames_of_old rs hbase, List.filterMap_cons_none hbase, List.filter_append]
          -- An object that keeps its own name, or has none, gives no new one.
          have hnone : (((h.get r).name.map (r, ·)).toList.filter fun entry =>
              (newBase? h isShared owners entry.1).isSome) = [] := by
            rw [List.filter_eq_nil_iff]
            intro entry hentry
            rcases Option.map_eq_some_iff.1 (Option.mem_toList.1 hentry) with ⟨name, -, rfl⟩
            rw [hbase]
            exact Bool.false_ne_true
          rw [hnone]
          exact ih

end

/-- A search for a name ends within one round more than names are taken, with the least number that
    makes a free name, and takes this name only. So names that are found one after another, from
    whatever bases, differ from each other and from all that were taken at the start. A survey finds
    its new names in this way. -/
theorem newNames_distinct :
    (∀ base taken, ∃ n ≤ taken.toFinset.card + 1, IsLeast (freeNumbers base taken) n ∧
      freshName base taken = numbered base n ∧
      ∀ rounds name after, Seeks base taken 1 rounds name after ↔
        rounds = n ∧ name = numbered base n ∧ after = numbered base n :: taken) ∧
    (∀ taken bases, (freshNames taken bases).Nodup ∧
      ∀ name ∈ freshNames taken bases, name ∉ taken) ∧
    ∀ h isShared owners taken rs,
      ((chooseNames h isShared owners taken rs).filter fun entry =>
          (newBase? h isShared owners entry.1).isSome).map Prod.snd =
        freshNames taken (rs.filterMap (newBase? h isShared owners)) := by
  refine ⟨fun base taken => ?_, fun taken bases => ⟨nodup_freshNames, ?_⟩, ?_⟩
  · rcases exists_isLeast_freeNumbers base taken with ⟨n, hleast⟩
    refine ⟨n, le_card_of_isLeast hleast, hleast, freshName_eq_of_isLeast hleast, ?_⟩
    exact fun _ _ _ => seeks_iff_of_isLeast hleast
  · exact fun name hname => freshNames_not_mem hname
  · exact fun _ _ _ _ rs => new_chooseNames rs

end GraphText.Writer

import GraphText.Proofs.Registry.History

/-!
# Deriving from a type

Which types derive from which. The search looks at a name before it looks the
name up, so that a type need not be registered to derive from itself or to have
others derive from it; what has to be registered is every type on the way. Where
no chain of bases is endless the search finds out just what can be reached in
this way: a type has one base at most, so the search cannot take a wrong turn.

For the same reason two types that derive from each other are the same. The
chain that leads from one to the other and back could be followed forever.

A type that was added makes no difference for the others unless one of them had
named it as its base before. Its own chain may well be endless then, even if the
others' are not; none of theirs ever meets it.

## Main definitions

* `Registry.Extends`: one step from a registered type to its base.

## Theorems

* `Registry.isDerivedFrom_of_walk`: a search decides when it ends, however late.
* `Registry.isDerivedFrom_iff`: deriving from a type is reaching it.
* `Registry.not_transGen_self`: no type is reached from itself in steps.
* `Registry.walk_change_add`: what is added is not met on chains that do not name it.
* `Registry.isDerivedFrom_closure`: all of this together.
-/

namespace GraphText.Registry

/-- A type of this name is registered and has the other one as its base. -/
def Extends (reg : Registry) (name parent : String) : Prop :=
  ∃ spec, reg.find? name = some spec ∧ spec.base = some parent

variable {reg : Registry} {spec : ObjectSpec} {name target parent x y : String} {n : Nat}

theorem extends_iff : reg.Extends name parent ↔ reg.baseOf? name = some parent :=
  Option.bind_eq_some_iff.symm

/-- A type has one base, so what it reaches is what its base reaches. -/
theorem reaches_iff (hbase : reg.baseOf? name = some parent) (hname : name ≠ target) :
    Relation.ReflTransGen reg.Extends name target ↔
      Relation.ReflTransGen reg.Extends parent target := by
  constructor
  · intro h
    rcases h.cases_head with heq | ⟨next, hnext, hrest⟩
    · exact absurd heq hname
    · rw [extends_iff, hbase, Option.some.injEq] at hnext
      exact hnext ▸ hrest
  · exact .head (extends_iff.2 hbase)

/-- A search that is decided tells whether the type is reached. -/
theorem walk_tells {answer : Bool} (h : reg.walk target n name = some answer) :
    answer = true ↔ Relation.ReflTransGen reg.Extends name target := by
  induction n generalizing name with
  | zero => cases h
  | succ n ih =>
      rw [walk] at h
      by_cases hname : name = target
      · rw [if_pos hname, Option.some.injEq] at h
        exact iff_of_true h.symm (hname ▸ .refl)
      · rw [if_neg hname] at h
        cases hbase : reg.baseOf? name with
        | some parent =>
            rw [hbase] at h
            rw [reaches_iff hbase hname]
            exact ih h
        | none =>
            rw [hbase, Option.some.injEq] at h
            refine iff_of_false (by simp [← h]) fun hreach => ?_
            rcases hreach.cases_head with heq | ⟨next, hnext, -⟩
            · exact hname heq
            · rw [extends_iff, hbase] at hnext
              cases hnext

/-- Whenever the search comes to an end, it has decided what there is to decide. -/
theorem isDerivedFrom_of_walk {answer : Bool} (h : reg.walk target n name = some answer) :
    reg.isDerivedFrom name target = answer := by
  rcases Option.isSome_iff_exists.1 (walk_isSome_of_eq_some h) with ⟨found, hfound⟩
  have hsame : found = answer := Option.some.inj <|
    (walk_of_le hfound (Nat.le_add_left _ n)).symm.trans (walk_of_le h (Nat.le_add_right n _))
  rw [isDerivedFrom, hfound]
  exact hsame

/-- Where no chain of bases is endless, deriving from a type is reaching it. -/
theorem isDerivedFrom_iff (h : reg.HasEnds) :
    reg.isDerivedFrom name target = true ↔ Relation.ReflTransGen reg.Extends name target := by
  rcases Option.isSome_iff_exists.1 (walk_isSome_of_hasEnds h target name) with ⟨answer, hanswer⟩
  rw [isDerivedFrom_of_walk hanswer]
  exact walk_tells hanswer

/-- A type cannot be reached from itself in steps. Its base could then be reached from itself as
    well, and so on up to the end of its chain, from where there are no steps. -/
theorem not_transGen_self (h : reg.HasEnds) : ¬ Relation.TransGen reg.Extends x x := by
  rcases h x with ⟨top, hchain, htop⟩
  induction hchain using Relation.ReflTransGen.head_induction_on with
  | refl =>
      intro hcircle
      rcases Relation.TransGen.head'_iff.1 hcircle with ⟨next, hnext, -⟩
      rw [extends_iff, htop] at hnext
      cases hnext
  | head hbase _ ih =>
      intro hcircle
      rcases Relation.TransGen.head'_iff.1 hcircle with ⟨next, hnext, hback⟩
      rw [extends_iff, hbase, Option.some.injEq] at hnext
      exact ih (.tail' (hnext ▸ hback) (extends_iff.2 hbase))

/-- Types that derive from each other are the same. -/
theorem reaches_antisymm (h : reg.HasEnds) (hxy : Relation.ReflTransGen reg.Extends x y)
    (hyx : Relation.ReflTransGen reg.Extends y x) : x = y := by
  rcases Relation.reflTransGen_iff_eq_or_transGen.1 hxy with heq | hsteps
  · exact heq.symm
  · exact absurd (hsteps.trans_left hyx) (not_transGen_self h)

theorem baseOf?_change_add (hname : name ≠ spec.typeName) :
    (reg.change (.add spec)).baseOf? name = reg.baseOf? name := by
  rw [baseOf?, find?_change_add, if_neg fun h => hname h.1.symm, Option.or_none, baseOf?]

/-- A search that begins at another type does not meet a type that was added, as long as none had
    named it as its base. -/
theorem walk_change_add (hunnamed : ∀ other ∈ reg.specs, other.base ≠ some spec.typeName)
    (hname : name ≠ spec.typeName) :
    (reg.change (.add spec)).walk target n name = reg.walk target n name := by
  induction n generalizing name with
  | zero => rfl
  | succ n ih =>
      rw [walk, walk, baseOf?_change_add hname]
      cases hbase : reg.baseOf? name with
      | none => rfl
      | some parent =>
          have hparent : parent ≠ spec.typeName := by
            rintro rfl
            rcases extends_iff.2 hbase with ⟨other, hother, hnamed⟩
            exact hunnamed other (mem_specs_of_find? hother) hnamed
          simp only [ih hparent]

/-- Nor does it decide anything else than before. -/
theorem isDerivedFrom_change_add (h : reg.HasEnds)
    (hunnamed : ∀ other ∈ reg.specs, other.base ≠ some spec.typeName)
    (hname : name ≠ spec.typeName) :
    (reg.change (.add spec)).isDerivedFrom name target = reg.isDerivedFrom name target := by
  rcases Option.isSome_iff_exists.1 (walk_isSome_of_hasEnds h target name) with ⟨answer, hanswer⟩
  rw [isDerivedFrom_of_walk hanswer]
  exact isDerivedFrom_of_walk ((walk_change_add hunnamed hname).trans hanswer)

/-- Where no chain of bases is endless, a type derives from another one exactly if it reaches it in
    steps from registered types to their bases, none or more of them. So every type derives from
    itself, what it derives from derives from nothing that it does not, and types that derive from
    each other are the same. Adding a type that no registered one has as its base does not change
    what any other type derives from. -/
theorem isDerivedFrom_closure (h : reg.HasEnds) :
    (∀ name target, reg.isDerivedFrom name target = true ↔
      Relation.ReflTransGen reg.Extends name target) ∧
    (∀ name, reg.isDerivedFrom name name = true) ∧
    (∀ x y z, reg.isDerivedFrom x y = true → reg.isDerivedFrom y z = true →
      reg.isDerivedFrom x z = true) ∧
    (∀ x y, reg.isDerivedFrom x y = true → reg.isDerivedFrom y x = true → x = y) ∧
    ∀ spec, (∀ other ∈ reg.specs, other.base ≠ some spec.typeName) →
      ∀ name target, name ≠ spec.typeName →
        (reg.change (.add spec)).isDerivedFrom name target = reg.isDerivedFrom name target := by
  refine ⟨fun name target => isDerivedFrom_iff h, ?_, ?_, ?_, ?_⟩
  · intro name
    exact (isDerivedFrom_iff h).2 .refl
  · intro x y z hxy hyz
    rw [isDerivedFrom_iff h] at hxy hyz ⊢
    exact hxy.trans hyz
  · intro x y hxy hyx
    rw [isDerivedFrom_iff h] at hxy hyx
    exact reaches_antisymm h hxy hyx
  · intro spec hunnamed name target hname
    exact isDerivedFrom_change_add h hunnamed hname

/-- A type that is registered before its base, whose own base is never registered. -/
def chained : Registry :=
  ofChanges [.add { typeName := "C", base := some "B" }, .add { typeName := "B", base := some "A" }]

theorem chained_hasEnds : chained.HasEnds := by
  have hA : chained.baseOf? "A" = none := by decide
  have hB : chained.baseOf? "B" = some "A" := by decide
  have hC : chained.baseOf? "C" = some "B" := by decide
  intro name
  cases hbase : chained.baseOf? name with
  | none => exact ⟨name, .refl, hbase⟩
  | some parent =>
      have hmem := mem_typeName_of_baseOf? hbase
      rw [show chained.specs.map ObjectSpec.typeName = ["C", "B"] by decide] at hmem
      rcases List.mem_pair.1 hmem with rfl | rfl
      · exact ⟨"A", .head hC (.single hB), hA⟩
      · exact ⟨"A", .single hB, hA⟩

/-- The type that was registered first derives from the one that is not registered, and still does
    when a type is added that is its own base. -/
theorem isDerivedFrom_closure_chained :
    chained.HasEnds ∧ Relation.ReflTransGen chained.Extends "C" "A" ∧
      (∀ other ∈ chained.specs, other.base ≠ some "N") ∧
      (chained.change (.add { typeName := "N", base := some "N" })).isDerivedFrom "C" "A" =
        true := by
  rcases isDerivedFrom_closure chained_hasEnds with ⟨hreach, -, -, -, hadd⟩
  have hderived : chained.isDerivedFrom "C" "A" = true := by decide
  have hunnamed : ∀ other ∈ chained.specs, other.base ≠ some "N" := by decide
  refine ⟨chained_hasEnds, (hreach "C" "A").1 hderived, hunnamed, ?_⟩
  rw [hadd { typeName := "N", base := some "N" } hunnamed "C" "A" (by decide)]
  exact hderived

end GraphText.Registry

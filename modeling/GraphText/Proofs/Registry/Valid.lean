import GraphText.Registry

/-!
# Valid registries

Registering a type checks its field list once, and nothing that is registered is
ever changed. So of every registered type it is known that its fields have
different names, that each takes a value, and that a field of objects takes
exactly one. In particular a field is the one that is found by its name.

## Main definitions

* `ObjectSpec.IsSound`: a field list that a type may have.
* `Registry.IsValid`: every type passed the check.

## Theorems

* `ObjectSpec.fieldsFlaw?_eq_none_iff`: what the check says about a field list.
* `ObjectSpec.flaw?_eq_none_iff`: which field lists pass it.
* `Registry.isValid_of_addAll`: registering makes valid registries.
* `Registry.IsValid.find?_of_mem`: a field is found by its name.
-/

namespace GraphText

/-- What has a key that nothing else in a list has is found by it. -/
theorem find?_of_nodup {α β : Type} [DecidableEq β] {key : α → β} {x : α} {xs : List α}
    (hnodup : (xs.map key).Nodup) (hx : x ∈ xs) :
    xs.find? (fun other => key other = key x) = some x := by
  induction xs with
  | nil => cases hx
  | cons first rest ih =>
      rw [List.map_cons, List.nodup_cons] at hnodup
      rcases List.mem_cons.1 hx with rfl | hx
      · exact List.find?_cons_of_pos (by simp)
      · have hne : key first ≠ key x := fun heq =>
          hnodup.1 (heq ▸ List.mem_map.2 ⟨x, hx, rfl⟩)
        rw [List.find?_cons_of_neg (by simpa using hne)]
        exact ih hnodup.2 hx

namespace ObjectSpec

variable {typeName : String} {field : FieldSpec} {fields : List FieldSpec} {seen : List String}

theorem fieldFlaw?_eq_none_iff :
    fieldFlaw? typeName seen field = none ↔
      field.name ∉ seen ∧ field.kind.arity ≠ 0 ∧
        ((∀ type, field.kind.valueType ≠ .scalar type) → field.kind.arity = 1) := by
  unfold fieldFlaw?
  by_cases hseen : seen.contains field.name = true
  · rw [if_pos hseen]
    exact iff_of_false nofun fun h => h.1 (List.contains_iff_mem.1 hseen)
  rw [if_neg hseen]
  by_cases harity : field.kind.arity = 0
  · rw [if_pos harity]
    exact iff_of_false nofun fun h => h.2.1 harity
  rw [if_neg harity]
  have hnew : field.name ∉ seen := fun hmem => hseen (List.contains_iff_mem.2 hmem)
  cases htype : field.kind.valueType with
  | scalar type => exact iff_of_true rfl ⟨hnew, harity, fun hobject => absurd rfl (hobject type)⟩
  | object | objectList => simp [hnew, harity]

/-- What the check says about a field list. -/
theorem fieldsFlaw?_eq_none_iff :
    fieldsFlaw? typeName seen fields = none ↔
      (fields.map FieldSpec.name).Nodup ∧ ∀ field ∈ fields, field.name ∉ seen ∧
        field.kind.arity ≠ 0 ∧
        ((∀ type, field.kind.valueType ≠ .scalar type) → field.kind.arity = 1) := by
  induction fields generalizing seen with
  | nil => simp [fieldsFlaw?]
  | cons first rest ih =>
      rw [fieldsFlaw?, List.map_cons, List.nodup_cons, List.forall_mem_cons]
      cases hfirst : fieldFlaw? typeName seen first with
      | some cause =>
          refine iff_of_false nofun fun h => ?_
          rw [fieldFlaw?_eq_none_iff.2 h.2.1] at hfirst
          cases hfirst
      | none =>
          dsimp only
          rw [ih]
          -- That a later field does not repeat the name of the first is told by the names that have
          -- been seen.
          constructor
          · rintro ⟨hnodup, hrest⟩
            refine ⟨⟨fun hmem => ?_, hnodup⟩, fieldFlaw?_eq_none_iff.1 hfirst,
              fun field hfield => ?_⟩
            · rcases List.mem_map.1 hmem with ⟨field, hfield, hname⟩
              exact (hrest field hfield).1 (hname ▸ List.mem_cons_self)
            · exact ⟨fun hmem => (hrest field hfield).1 (List.mem_cons_of_mem _ hmem),
                (hrest field hfield).2⟩
          · rintro ⟨⟨hfresh, hnodup⟩, -, hrest⟩
            refine ⟨hnodup, fun field hfield => ⟨fun hmem => ?_, (hrest field hfield).2⟩⟩
            rcases List.mem_cons.1 hmem with hname | hmem
            · exact hfresh (hname ▸ List.mem_map_of_mem hfield)
            · exact (hrest field hfield).1 hmem

/-- Whatever is wrong with a field list makes it the list of no type. -/
theorem kind_of_fieldsFlaw? {cause : Cause} (h : fieldsFlaw? typeName seen fields = some cause) :
    cause.kind = .invalidSpec := by
  induction fields generalizing seen with
  | nil => cases h
  | cons first rest ih =>
      rw [fieldsFlaw?] at h
      split at h
      next hfirst =>
        cases h
        unfold fieldFlaw? at hfirst
        repeat' split at hfirst
        all_goals cases hfirst
        all_goals rfl
      · exact ih h

/-- The field list is one that a type may have: the fields have different names and take values, and
    a field of objects takes one value and no list of them. -/
structure IsSound (spec : ObjectSpec) : Prop where
  distinct : (spec.fields.map FieldSpec.name).Nodup
  counted : ∀ field ∈ spec.fields, field.kind.arity ≠ 0
  single : ∀ field ∈ spec.fields,
    field.kind.valueType = .object ∨ field.kind.valueType = .objectList →
      field.kind.arity = 1 ∧ field.kind.isList = false

/-- The check finds nothing wrong with the field lists that types may have, and with no others. -/
theorem flaw?_eq_none_iff {spec : ObjectSpec} : spec.flaw? = none ↔ spec.IsSound := by
  have hobject : ∀ kind : FieldKind, (∀ type, kind.valueType ≠ .scalar type) ↔
      kind.valueType = .object ∨ kind.valueType = .objectList := by
    intro kind
    cases kind.valueType with
    | scalar type => simp
    | object | objectList => simp
  -- Objects and lists of objects are no lists of scalars, so this need not be checked of them.
  have hlist : ∀ kind : FieldKind,
      kind.valueType = .object ∨ kind.valueType = .objectList → kind.isList = false := by
    intro kind hkind
    cases kind with
    | list type => simp [FieldKind.valueType] at hkind
    | scalar | array | choice | flags | object | objects | raw => rfl
  rw [flaw?, fieldsFlaw?_eq_none_iff]
  simp only [hobject, List.not_mem_nil, not_false_eq_true, true_and]
  constructor
  · rintro ⟨hdistinct, hfields⟩
    refine ⟨hdistinct, fun field hfield => (hfields field hfield).1, fun field hfield hkind => ?_⟩
    exact ⟨(hfields field hfield).2 hkind, hlist _ hkind⟩
  · rintro ⟨hdistinct, hcounted, hsingle⟩
    exact ⟨hdistinct, fun field hfield =>
      ⟨hcounted field hfield, fun hkind => (hsingle field hfield hkind).1⟩⟩

instance (spec : ObjectSpec) : Decidable spec.IsSound :=
  decidable_of_iff (spec.flaw? = none) flaw?_eq_none_iff

end ObjectSpec

namespace Registry

/-- Every type passed the check of its fields. -/
def IsValid (reg : Registry) : Prop :=
  ∀ spec ∈ reg.specs, spec.flaw? = none

variable {reg reg' : Registry} {spec : ObjectSpec} {name : String} {field : FieldSpec}

/-- A type is found by its own name. -/
theorem typeName_of_find? (h : reg.find? name = some spec) : spec.typeName = name := by
  simpa using List.find?_some h

theorem mem_specs_of_find? (h : reg.find? name = some spec) : spec ∈ reg.specs :=
  List.mem_of_find?_eq_some h

theorem isValid_add (h : reg.IsValid) (hadd : reg.add spec = .ok reg') : reg'.IsValid := by
  unfold add at hadd
  split at hadd
  · cases hadd
  · split at hadd
    · cases hadd
    next hflaw =>
      cases hadd
      intro other hother
      rcases List.mem_append.1 hother with hold | hnew
      · exact h other hold
      · exact List.mem_singleton.1 hnew ▸ hflaw

/-- Registering makes valid registries. -/
theorem isValid_addAll {specs : List ObjectSpec} (h : reg.IsValid)
    (hadd : reg.addAll specs = .ok reg') : reg'.IsValid := by
  unfold Registry.addAll at hadd
  induction specs generalizing reg with
  | nil =>
      cases hadd
      exact h
  | cons spec specs ih =>
      rw [List.foldlM_cons] at hadd
      cases hfirst : reg.add spec with
      | error e => simp [hfirst, bind, Except.bind] at hadd
      | ok next =>
          simp only [hfirst, bind, Except.bind] at hadd
          exact ih (isValid_add h hfirst) hadd

theorem isValid_of_addAll {specs : List ObjectSpec} (h : empty.addAll specs = .ok reg) :
    reg.IsValid :=
  have hempty : empty.IsValid := fun _ hspec => nomatch hspec
  isValid_addAll hempty h

namespace IsValid

variable (h : reg.IsValid) (hspec : reg.find? name = some spec)

include h hspec

/-- A field is found by its name. -/
theorem find?_of_mem (hfield : field ∈ spec.fields) : spec.find? field.name = some field :=
  find?_of_nodup
    (ObjectSpec.fieldsFlaw?_eq_none_iff.1 (h spec (mem_specs_of_find? hspec))).1 hfield

theorem arity_ne_zero (hfield : field ∈ spec.fields) : field.kind.arity ≠ 0 :=
  ((ObjectSpec.fieldsFlaw?_eq_none_iff.1 (h spec (mem_specs_of_find? hspec))).2 field hfield).2.1

end IsValid

end Registry

end GraphText

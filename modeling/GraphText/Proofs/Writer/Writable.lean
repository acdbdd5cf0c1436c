import GraphText.Proofs.Heap.Typed
import GraphText.Proofs.Reader.Scalars
import GraphText.Proofs.Writer.Expansion

/-!
# Objects that can be written and read

A text can give an object again if it can name the type and the fields and give
the values to the fields. An object that was read can be given again, since all
of that was done once; what had to be done to store a value may not have been
the same, but what a field keeps can be stored again. Two things are not in
the objects. The flags of the registry must be read by their names, and a single
must be read back as it was.

## Main definitions

* `Given`: values that a text can give to a field.
* `Writable`: an object that a text can give again.

## Theorems

* `writable_of_typed`: objects that were read.
* `shaped_of_given`: what can be given can be written.
-/

namespace GraphText

namespace Writer

/-- Values that a text can give to a field. -/
structure Given (reg : Registry) (h : Heap) (field : FieldSpec) (vs : List Value) : Prop where
  spelled : field.IsSpelled
  arity : field.kind.arity ≠ 0
  keeps : ∃ content, field.kind.Keeps field.name content vs
  meets : ∀ r ∈ vs.flatMap Value.refs, h.Meets reg field r
  back : ∀ v ∈ vs, v.ReadsBack

/-- An object of a type that a text can give again. -/
structure Writable (reg : Registry) (h : Heap) (r : Ref) (spec : ObjectSpec) : Prop where
  found : reg.find? (h.get r).typeName = some spec
  spelled : spec.IsSpelled
  concrete : spec.isAbstract = false
  visible : ∀ field ∈ reg.visibleOf (h.get r), spec.find? field.name = some field
  nodup : ((writtenFields reg (h.get r)).map fun line => line.1.name).Nodup
  lines : ∀ line ∈ writtenFields reg (h.get r), Given reg h line.1 line.2

section

variable {reg : Registry} {h : Heap} {r : Ref} {i : Instance} {spec : ObjectSpec}

theorem mem_writtenFields {line : FieldSpec × List Value} :
    line ∈ writtenFields reg i ↔ line.1 ∈ reg.visibleOf i ∧ i.fetch? line.1 = some line.2 := by
  unfold writtenFields
  rw [List.mem_filterMap]
  constructor
  · rintro ⟨field, hfield, hline⟩
    rcases Option.map_eq_some_iff.1 hline with ⟨vs, hvs, rfl⟩
    exact ⟨hfield, hvs⟩
  · rintro ⟨hfield, hvs⟩
    exact ⟨line.1, hfield, by rw [hvs]; rfl⟩

theorem names_sublist (i : Instance) (fields : List FieldSpec) :
    ((fields.filterMap fun field => (i.fetch? field).map fun vs => (field, vs)).map
      fun line : FieldSpec × List Value => line.1.name).Sublist (fields.map FieldSpec.name) := by
  induction fields with
  | nil => exact .slnil
  | cons field fields ih =>
      rw [List.filterMap_cons]
      cases i.fetch? field with
      | none => exact ih.cons field.name
      | some vs => exact ih.cons_cons field.name

theorem visibleOf_eq (hspec : reg.find? i.typeName = some spec) :
    reg.visibleOf i = spec.fields.filter fun field => !field.hidden := by
  unfold Registry.visibleOf Registry.fieldsOf
  rw [hspec]

/-- What was read can be given again. -/
theorem writable_of_typed (hvalid : reg.IsValid) (hdeclared : reg.IsDeclared)
    (htyped : (h.get r).Typed reg h)
    (hback : ∀ line ∈ writtenFields reg (h.get r), ∀ v ∈ line.2, v.ReadsBack) :
    ∃ spec, Writable reg h r spec := by
  rcases htyped.concrete with ⟨spec, hspec, hspelled, hconcrete⟩
  have hmem := Registry.mem_specs_of_find? hspec
  have hfields : ∀ field ∈ reg.visibleOf (h.get r), field ∈ spec.fields := by
    intro field hfield
    rw [visibleOf_eq hspec] at hfield
    exact (List.mem_filter.1 hfield).1
  refine ⟨spec, hspec, hspelled, hconcrete,
    fun field hfield => hvalid.find?_of_mem hspec (hfields field hfield), ?_, ?_⟩
  · refine (names_sublist (h.get r) _).nodup ?_
    rw [visibleOf_eq hspec]
    refine (List.filter_sublist.map FieldSpec.name).nodup ?_
    exact (ObjectSpec.fieldsFlaw?_eq_none_iff.1 (hvalid spec hmem)).1
  · rintro ⟨field, vs⟩ hline
    rcases mem_writtenFields.1 hline with ⟨hfield, hfetch⟩
    rcases Option.bind_eq_some_iff.1 hfetch with ⟨content, hcontent, hvs⟩
    rcases htyped.slots field.name content hcontent with ⟨found, given, hstored⟩
    rcases hstored.found with ⟨spec', hspec', hfound⟩
    -- The field of that name is this one.
    rw [hspec, Option.some.injEq] at hspec'
    rw [← hspec', hvalid.find?_of_mem hspec (hfields field hfield), Option.some.injEq] at hfound
    rw [← hfound] at hstored
    have harity := hvalid.arity_ne_zero hspec (hfields field hfield)
    rcases FieldKind.keeps_of_store (hdeclared spec hmem field (hfields field hfield))
      hstored.fits hstored.store with ⟨ws, hkeeps, hrefs⟩
    have hsame : ws = vs := Option.some.inj (hkeeps.fetch.symm.trans hvs)
    rw [hsame] at hkeeps hrefs
    exact ⟨hstored.spelled, harity, ⟨content, hkeeps⟩, hrefs ▸ hstored.meets,
      hback (field, vs) hline⟩

/-- Values that can be given can be written. -/
theorem shaped_of_given {field : FieldSpec} {vs : List Value} (hgiven : Given reg h field vs) :
    IsShaped vs := by
  rcases hgiven.keeps with ⟨content, hkeeps⟩
  have hfits := hkeeps.fits
  cases htype : field.kind.valueType with
  | scalar type =>
      rw [FieldKind.fits_scalar_iff htype] at hfits
      exact .inr (.inr fun v hv => ⟨type, hfits.1 v hv⟩)
  | object =>
      rw [FieldKind.fits_object_iff htype] at hfits
      exact .inl hfits
  | objectList =>
      rw [FieldKind.fits_objects_iff htype] at hfits
      exact .inr (.inl hfits)

end

end Writer

end GraphText

import GraphText.Proofs.Heap.Renamed
import GraphText.Proofs.Value.Flags

/-!
# What fields keep

A graph text gives a field values of one shape: as many scalars of one type as
the field has places, any number of them in brackets, one object, or one list of
objects. Storing such values and fetching them again gives values of the same
shape. They are the values that were stored, except for flags, which may come
back under other names; but what comes back from then on stays as it is, and
storing it again keeps the same content. So a field that was given values by a
text can be written and given them again.

## Main definitions

* `FieldKind.Fits`: the values that a graph text gives to a field.
* `FieldKind.IsDeclared`, `Registry.IsDeclared`: flags that are read by their names.
* `FieldKind.Keeps`: a content and the values that it is fetched as.

## Theorems

* `FieldKind.values_of_store`: what is kept of values, except for flags.
* `FieldKind.fetch_of_store`: what is fetched of what was stored.
* `FieldKind.keeps_of_store`: what was stored can be stored again.
* `FieldKind.Keeps.mapRefs`: the same under other numbers.
-/

namespace GraphText.FieldKind

/-- The values that a graph text gives to a field of this kind. -/
def Fits (kind : FieldKind) (vs : List Value) : Prop :=
  match kind.valueType with
  | .scalar type =>
    (∀ v ∈ vs, v.type = .scalar type) ∧ (kind.isList = false → vs.length = kind.arity)
  | .object => ∃ r, vs = [.object r]
  | .objectList => ∃ rs, vs = [.objects rs]

/-- Whether the flags of the field, if it is one of flags, are read by their names. -/
def IsDeclared : FieldKind → Prop
  | .flags table => table.IsDeclared
  | _ => True

/-- A content that is fetched as these values, and that a text can give to the field again. -/
structure Keeps (kind : FieldKind) (field : String) (content : Content) (vs : List Value) :
    Prop where
  fits : kind.Fits vs
  fetch : kind.fetch? content = some vs
  store : kind.store? field vs = .ok content

variable {kind : FieldKind} {field : String} {content : Content} {vs given : List Value}
  {f : Ref → Ref}

theorem eq_of_oneString {s : String} (h : oneString field vs = .ok s) : vs = [.string s] := by
  rcases bind_eq_ok h with ⟨_, -, h⟩
  split at h
  · cases h
    rfl
  · cases h

theorem oneString_string (field s : String) : oneString field [.string s] = .ok s := by
  rfl

theorem fits_scalar_iff {type : ScalarType} (htype : kind.valueType = .scalar type) :
    kind.Fits vs ↔
      (∀ v ∈ vs, v.type = .scalar type) ∧ (kind.isList = false → vs.length = kind.arity) := by
  unfold Fits
  rw [htype]

theorem fits_object_iff (htype : kind.valueType = .object) :
    kind.Fits vs ↔ ∃ r, vs = [.object r] := by
  unfold Fits
  rw [htype]

theorem fits_objects_iff (htype : kind.valueType = .objectList) :
    kind.Fits vs ↔ ∃ rs, vs = [.objects rs] := by
  unfold Fits
  rw [htype]

/-- Flags are kept in another way than everything else. -/
theorem flags_or (kind : FieldKind) :
    (∃ table, kind = .flags table) ∨ ∀ table, kind ≠ .flags table := by
  by_cases h : ∃ table, kind = .flags table
  · exact .inl h
  · exact .inr fun table heq => h ⟨table, heq⟩

/-- Of all kinds but flags the very values that were given are kept. -/
theorem values_of_store (hflags : ∀ table, kind ≠ .flags table)
    (h : kind.store? field vs = .ok content) : content = .values vs := by
  cases kind with
  | scalar type | array type count =>
      rcases bind_eq_ok h with ⟨_, -, hcontent⟩
      split at hcontent
      · cases hcontent
        rfl
      · cases hcontent
  | list type =>
      rcases bind_eq_ok h with ⟨_, -, hcontent⟩
      cases hcontent
      rfl
  | choice names =>
      rcases bind_eq_ok h with ⟨name, hname, hcontent⟩
      rcases bind_eq_ok hname with ⟨s, hs, hchoice⟩
      cases hcontent
      -- A choice is kept by its own name.
      have hsame : name = s := by
        unfold Literal.choice at hchoice
        split at hchoice
        · cases hchoice
          rfl
        · cases hchoice
      rw [eq_of_oneString hs, hsame]
  | flags table => exact absurd rfl (hflags table)
  | object required | objects required =>
      simp only [store?] at h
      split at h
      · cases h
        rfl
      · cases h
  | raw type arity =>
      cases h
      rfl

theorem fetch?_values (hflags : ∀ table, kind ≠ .flags table) (vs : List Value) :
    kind.fetch? (.values vs) = some vs := by
  cases kind with
  | flags table => exact absurd rfl (hflags table)
  | scalar | array | list | choice | object | objects | raw => rfl

/-- What was stored is fetched as values that fit as well and refer to the same objects, and can be
    stored again. -/
theorem fetch_of_store (hfits : kind.Fits given) (hstore : kind.store? field given = .ok content) :
    ∃ vs, kind.fetch? content = some vs ∧ kind.Fits vs ∧
      vs.flatMap Value.refs = given.flatMap Value.refs ∧
      (kind.IsDeclared → kind.store? field vs = .ok content) := by
  rcases flags_or kind with ⟨table, rfl⟩ | hother
  · rcases bind_eq_ok hstore with ⟨bits, hbits, hcontent⟩
    rcases bind_eq_ok hbits with ⟨s, hs, hdecode⟩
    cases hcontent
    refine ⟨[.string (table.encode bits)], rfl, ?_, ?_, fun hdeclared => ?_⟩
    · exact ⟨by simp [Value.type], fun _ => rfl⟩
    · rw [eq_of_oneString hs]
      rfl
    -- The bits are a union of flags, so their own names give them back.
    · have hback : table.decode (table.encode bits) = .ok bits := by
        rw [FlagTable.decode_encode_eq hdeclared, FlagTable.covered_of_decode hdecode]
      rw [store?, oneString_string]
      simp only [bind, Except.bind, hback]
  · have hcontent := values_of_store hother hstore
    exact ⟨given, hcontent ▸ fetch?_values hother given, hfits, rfl, fun _ => hstore⟩

/-- What was stored can be stored again, as the values that it is fetched as. -/
theorem keeps_of_store (hdeclared : kind.IsDeclared) (hfits : kind.Fits given)
    (hstore : kind.store? field given = .ok content) :
    ∃ vs, kind.Keeps field content vs ∧ vs.flatMap Value.refs = given.flatMap Value.refs := by
  rcases fetch_of_store hfits hstore with ⟨vs, hfetch, hvs, hrefs, hagain⟩
  exact ⟨vs, ⟨hvs, hfetch, hagain hdeclared⟩, hrefs⟩

theorem Fits.mapRefs (h : kind.Fits vs) : kind.Fits (vs.map (Value.mapRefs f)) := by
  unfold Fits at h ⊢
  split at h
  · refine ⟨fun v hv => ?_, fun hlist => ?_⟩
    · rcases List.mem_map.1 hv with ⟨u, hu, rfl⟩
      rw [Value.type_mapRefs]
      exact h.1 u hu
    · rw [List.length_map]
      exact h.2 hlist
  · rcases h with ⟨r, rfl⟩
    exact ⟨f r, rfl⟩
  · rcases h with ⟨rs, rfl⟩
    exact ⟨rs.map f, rfl⟩

/-- What is kept under other numbers is fetched and stored under other numbers. -/
theorem Keeps.mapRefs (h : kind.Keeps field content vs) :
    kind.Keeps field (content.mapRefs f) (vs.map (Value.mapRefs f)) where
  fits := h.fits.mapRefs
  fetch := by rw [fetch?_mapRefs, h.fetch]; rfl
  store := by rw [store?_mapRefs, h.store]; rfl

end GraphText.FieldKind

namespace GraphText

/-- Whether the flags of all fields are read by their names. -/
def Registry.IsDeclared (reg : Registry) : Prop :=
  ∀ spec ∈ reg.specs, ∀ field ∈ spec.fields, field.kind.IsDeclared

end GraphText

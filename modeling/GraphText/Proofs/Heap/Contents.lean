import GraphText.Proofs.Heap.Fields

/-!
# What belongs into a field

A field takes one scalar of its type, or as many as it has places, or any number
of them; a choice is one of the names, and flags are bits that some declared
flags have together. Every store checks this, so whatever was stored belongs
into its field.

The other way round, what belongs into a field can be taken out and stored again,
and that keeps it as it is. For flags the names have to be read as the flags that
they were declared for, which is what a declaration of flags is expected to see
to. So a field can be copied by its values alone.

## Main definitions

* `FieldKind.Admits`: the contents that belong into a field.

## Theorems

* `FieldKind.admits_of_store`: what was stored belongs into its field.
* `FieldKind.store_of_admits`: what belongs into a field can be stored again.
-/

namespace GraphText

namespace FlagTable

variable {table : FlagTable} {bits : UInt32}

/-- Bits that were read are those of declared flags together. -/
theorem union_of_decode {text : String} (h : table.decode text = .ok bits) :
    ∃ named, named ⊆ table ∧ bits = Bits.union (named.map Prod.snd) :=
  ⟨_, List.filter_sublist.subset, (covered_of_decode h).symm⟩

end FlagTable

namespace FieldKind

/-- The contents that belong into a field of this kind. -/
def Admits : FieldKind → Content → Prop
  | scalar type, .values vs => ∃ v, vs = [v] ∧ v.type = .scalar type
  | array type count, .values vs => vs.length = count ∧ ∀ v ∈ vs, v.type = .scalar type
  | list type, .values vs => ∀ v ∈ vs, v.type = .scalar type
  | choice names, .values vs => ∃ name ∈ names, vs = [.string name]
  | flags table, .bits b => ∃ named, named ⊆ table ∧ b = Bits.union (named.map Prod.snd)
  | object _, .values vs => ∃ r, vs = [.object r]
  | objects _, .values vs => ∃ rs, vs = [.objects rs]
  | raw _ _, .values _ => True
  | _, _ => False

variable {kind : FieldKind} {field : String} {content : Content} {vs : List Value}

theorem checkTypes_eq_ok_iff {wanted : ScalarType} :
    checkTypes field wanted vs = .ok () ↔ ∀ v ∈ vs, v.type = .scalar wanted := by
  induction vs with
  | nil => simp [checkTypes]
  | cons v vs ih =>
      rw [checkTypes, List.forall_mem_cons, ← ih]
      by_cases hv : v.type = .scalar wanted
      · rw [if_pos hv]
        exact ⟨fun h => ⟨hv, h⟩, And.right⟩
      · rw [if_neg hv]
        refine iff_of_false (fun h => ?_) fun h => hv h.1
        cases h

/-- What was stored belongs into its field. -/
theorem admits_of_store (h : kind.store? field vs = .ok content) : kind.Admits content := by
  cases kind with
  | scalar type =>
      rcases bind_eq_ok h with ⟨_, htypes, h⟩
      have htypes := checkTypes_eq_ok_iff.1 htypes
      by_cases hone : vs.length = 1
      · rw [if_pos hone] at h
        cases h
        rcases List.length_eq_one_iff.1 hone with ⟨v, rfl⟩
        exact ⟨v, rfl, htypes v List.mem_cons_self⟩
      · rw [if_neg hone] at h
        cases h
  | array type count =>
      rcases bind_eq_ok h with ⟨_, htypes, h⟩
      by_cases hcount : vs.length = count
      · rw [if_pos hcount] at h
        cases h
        exact ⟨hcount, checkTypes_eq_ok_iff.1 htypes⟩
      · rw [if_neg hcount] at h
        cases h
  | list type =>
      rcases bind_eq_ok h with ⟨_, htypes, h⟩
      cases h
      exact checkTypes_eq_ok_iff.1 htypes
  | choice names =>
      rcases bind_eq_ok h with ⟨name, hname, h⟩
      rcases bind_eq_ok hname with ⟨text, -, hchoice⟩
      cases h
      unfold Literal.choice at hchoice
      by_cases hmem : names.contains text
      · rw [if_pos hmem] at hchoice
        cases hchoice
        exact ⟨_, List.contains_iff_mem.1 hmem, rfl⟩
      · rw [if_neg hmem] at hchoice
        cases hchoice
  | flags table =>
      rcases bind_eq_ok h with ⟨bits, hbits, h⟩
      rcases bind_eq_ok hbits with ⟨text, -, hdecode⟩
      cases h
      exact FlagTable.union_of_decode hdecode
  | object required =>
      simp only [store?] at h
      split at h
      next r => cases h; exact ⟨r, rfl⟩
      · cases h
  | objects required =>
      simp only [store?] at h
      split at h
      next rs => cases h; exact ⟨rs, rfl⟩
      · cases h
  | raw type arity =>
      cases h
      trivial

/-- What belongs into a field can be taken out and stored again. -/
theorem store_of_admits (field : String) (hdeclared : kind.IsDeclared)
    (h : kind.Admits content) :
    ∃ vs, kind.fetch? content = some vs ∧ kind.store? field vs = .ok content := by
  cases content with
  | bits b =>
      cases kind with
      | flags table =>
          rcases h with ⟨named, hnamed, rfl⟩
          refine ⟨_, rfl, ?_⟩
          -- What is read is the flags that are contained in the bits, and these make up the bits.
          rw [store?, oneString_string]
          simp only [bind, Except.bind, FlagTable.decode_encode_eq hdeclared,
            FlagTable.covered_union hnamed]
      | scalar | array | list | choice | object | objects | raw => exact h.elim
  | values vs =>
      cases kind with
      | scalar type =>
          rcases h with ⟨v, rfl, hv⟩
          refine ⟨[v], rfl, ?_⟩
          rw [store?, checkTypes_eq_ok_iff.2 (by simpa using hv)]
          rfl
      | array type count =>
          refine ⟨vs, rfl, ?_⟩
          rw [store?, checkTypes_eq_ok_iff.2 h.2]
          exact if_pos h.1
      | list type =>
          refine ⟨vs, rfl, ?_⟩
          rw [store?, checkTypes_eq_ok_iff.2 h]
          rfl
      | choice names =>
          rcases h with ⟨name, hname, rfl⟩
          refine ⟨[.string name], rfl, ?_⟩
          rw [store?, oneString_string]
          simp only [bind, Except.bind, Literal.choice, List.contains_iff_mem.2 hname, if_true]
      | flags table => exact h.elim
      | object required =>
          rcases h with ⟨r, rfl⟩
          exact ⟨[.object r], rfl, rfl⟩
      | objects required =>
          rcases h with ⟨rs, rfl⟩
          exact ⟨[.objects rs], rfl, rfl⟩
      | raw type arity => exact ⟨vs, rfl, rfl⟩

end FieldKind

end GraphText

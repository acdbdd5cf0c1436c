import GraphText.Scope

/-!
# The names that scopes know

Three kinds of tables hold objects by name: the objects and the templates of the
open bodies, and the objects of the document. For what may be said about a named
object it does not matter which table it is in, so there is one relation for all
of them. Every lookup ends in it, and every change of the scopes adds at most
the one name that it is about.

## Main definitions

* `Scopes.Names`: whether an object is known by a name, in any table.

## Theorems

* `Scopes.names_of_resolve?`, `Scopes.names_of_template?`: what is found is known.
* `Scopes.names_of_define`, `Scopes.names_of_defineTemplate`: what becomes known.
-/

namespace GraphText.Scopes

/-- Whether an object is known by a name: in an open scope, as an object or a template, or in the
    document. -/
def Names (s : Scopes) (name : String) (r : Ref) : Prop :=
  (∃ scope ∈ s.all, scope.objects.find? name = some r ∨ scope.templates.find? name = some r) ∨
    s.document.find? name = some r

theorem names_of_resolve? {s : Scopes} {name : String} {r : Ref} (h : s.resolve? name = some r) :
    s.Names name r := by
  rcases Option.or_eq_some_iff.1 h with h | ⟨-, h⟩
  · rcases List.exists_of_findSome?_eq_some h with ⟨scope, hscope, h⟩
    rcases Option.or_eq_some_iff.1 h with h | ⟨-, h⟩
    · exact .inl ⟨scope, hscope, .inl h⟩
    · exact .inl ⟨scope, hscope, .inr h⟩
  · exact .inr h

theorem names_of_template? {s : Scopes} {name : String} {r : Ref}
    (h : s.template? name = some r) : s.Names name r := by
  rcases Option.or_eq_some_iff.1 h with h | ⟨-, h⟩
  · rcases List.exists_of_findSome?_eq_some h with ⟨scope, hscope, h⟩
    exact .inl ⟨scope, hscope, .inr h⟩
  · exact names_of_resolve? h

theorem names_of_open {s : Scopes} {name : String} {r : Ref} (h : s.open.Names name r) :
    s.Names name r := by
  rcases h with ⟨scope, hscope, h⟩ | h
  · rcases List.mem_cons.1 hscope with rfl | hscope
    · simp [Table.find?_empty] at h
    · exact .inl ⟨scope, hscope, h⟩
  · exact .inr h

theorem names_of_close {s : Scopes} {name : String} {r : Ref} (h : s.close.Names name r) :
    s.Names name r := by
  rcases h with ⟨scope, hscope, h⟩ | h
  · rcases List.mem_append.1 hscope with hscope | hscope
    · exact .inl ⟨scope, List.mem_append_left _ (List.mem_of_mem_tail hscope), h⟩
    · exact .inl ⟨scope, List.mem_append_right _ hscope, h⟩
  · exact .inr h

/-- A scope of changed scopes was there before, or is the innermost one as it has become. -/
theorem mem_all_modify {s : Scopes} {f : Scope → Scope} {scope : Scope}
    (h : scope ∈ (s.modify f).all) : scope ∈ s.all ∨ ∃ old ∈ s.all, scope = f old := by
  unfold modify at h
  split at h
  next hbodies =>
    rw [all, List.mem_append] at h
    rcases h with h | h
    · exact .inl (List.mem_append_left _ h)
    · rw [List.mem_singleton] at h
      exact .inr ⟨s.outermost, List.mem_append_right _ List.mem_cons_self, h⟩
  next old rest hbodies =>
    rw [all, List.cons_append, List.mem_cons] at h
    rcases h with h | h
    · refine .inr ⟨old, ?_, h⟩
      rw [all, hbodies]
      exact List.mem_cons_self
    · refine .inl ?_
      rw [all, hbodies]
      exact List.mem_cons_of_mem _ h

theorem document_modify (s : Scopes) (f : Scope → Scope) :
    (s.modify f).document = s.document := by
  unfold modify
  split <;> rfl

theorem names_of_defineConstant {s : Scopes} {constant value name : String} {r : Ref}
    (h : (s.defineConstant constant value).Names name r) : s.Names name r := by
  rcases h with ⟨scope, hscope, h⟩ | h
  · rcases mem_all_modify hscope with hold | ⟨old, hold, rfl⟩
    · exact .inl ⟨scope, hold, h⟩
    · exact .inl ⟨old, hold, h⟩
  · rw [defineConstant, document_modify] at h
    exact .inr h

theorem names_of_define {s : Scopes} {key name : String} {x r : Ref}
    (h : (s.define key x).Names name r) : s.Names name r ∨ (name = key ∧ r = x) := by
  rcases h with ⟨scope, hscope, h⟩ | h
  · rcases mem_all_modify hscope with hold | ⟨old, hold, rfl⟩
    · exact .inl (.inl ⟨scope, hold, h⟩)
    · rcases h with h | h
      · rw [Table.find?_insert] at h
        split at h
        next hname => cases h; exact .inr ⟨hname, rfl⟩
        · exact .inl (.inl ⟨old, hold, .inl h⟩)
      · exact .inl (.inl ⟨old, hold, .inr h⟩)
  · simp only [define, Table.find?_insert] at h
    split at h
    next hname => cases h; exact .inr ⟨hname, rfl⟩
    · exact .inl (.inr h)

theorem names_of_defineTemplate {s : Scopes} {key name : String} {x r : Ref}
    (h : (s.defineTemplate key x).Names name r) : s.Names name r ∨ (name = key ∧ r = x) := by
  rcases h with ⟨scope, hscope, h⟩ | h
  · rcases mem_all_modify hscope with hold | ⟨old, hold, rfl⟩
    · exact .inl (.inl ⟨scope, hold, h⟩)
    · rcases h with h | h
      · exact .inl (.inl ⟨old, hold, .inl h⟩)
      · rw [Table.find?_insert] at h
        split at h
        next hname => cases h; exact .inr ⟨hname, rfl⟩
        · exact .inl (.inl ⟨old, hold, .inr h⟩)
  · rw [defineTemplate, document_modify] at h
    exact .inl (.inr h)

theorem not_names_empty (name : String) (r : Ref) : ¬ ({} : Scopes).Names name r := by
  rintro (⟨scope, hscope, h⟩ | h)
  · simp only [all, List.nil_append, List.mem_singleton] at hscope
    subst hscope
    simp [Table.find?_empty] at h
  · simp [Table.find?_empty] at h

end GraphText.Scopes

import GraphText.Proofs.Heap.Lenses
import GraphText.Proofs.Heap.Typed
import GraphText.Proofs.Value.FlagTexts

/-!
# Stores that fail

A store checks its values against the field: their types, and how many there are.
Values of the shape that a graph text gives to the field pass these checks,
whatever they are. What is left to fail is the text of a choice or of flags, if it
names something that was not declared for the field, and the cause says which name
that is.

A copy is stored field by field too. What is fetched from an object of its type has
the shape of its field, so making a copy fails for no other reason either, unless
there is no such type.

## Main definitions

* `Cause.IsMisfit`: values that are not of the shape of their field.
* `FlagTable.undeclared?`: the name in a text that is not one of a table.
* `FieldKind.Undeclared`: values that name what was not declared for a field.

## Theorems

* `FlagTable.decode_eq_error_iff`: which texts are not read as flags.
* `FieldKind.store?_eq_error_iff`: which values of the right shape are not stored.
* `Heap.not_isMisfit_of_copy`: a copy has no values of a wrong shape.
-/

namespace GraphText

/-- Whether values were not of the shape of their field: of other types than it takes, or more or
    fewer. -/
def Cause.IsMisfit : Cause → Prop
  | wrongType _ _ _ | notOneValue _ _ | wrongCount _ _ _ | notOneObject _ | notObjectList _ => True
  | _ => False

namespace FlagTable

variable {table : FlagTable} {text : String} {cause : Cause}

/-- The first name in a text that is not one of the table. -/
def undeclared? (table : FlagTable) (text : String) : Option String :=
  (mentioned text).find? fun name => (table.find? name).isNone

/-- Pieces are read up to the first that names no flag. -/
theorem decodePieces_eq_error_iff {ps : List (List Char)} :
    decodePieces table text ps = .error cause ↔
      ∃ name, (ps.map fun piece => String.ofList (Text.trimmed piece)).find?
        (fun name => (table.find? name).isNone) = some name ∧ cause = .unknownFlag name text := by
  induction ps with
  | nil =>
      refine iff_of_false (fun h => ?_) fun ⟨_, h, _⟩ => ?_
      · cases h
      · cases h
  | cons p ps ih =>
      rw [decodePieces, List.map_cons]
      cases hfind : table.find? (String.ofList (Text.trimmed p)) with
      | none =>
          rw [List.find?_cons_of_pos (by rw [hfind]; rfl)]
          simp only [Except.error.injEq, Option.some.injEq, exists_eq_left']
          exact eq_comm
      | some flag =>
          rw [List.find?_cons_of_neg (by rw [hfind]; exact Bool.false_ne_true), ← ih]
          exact map_eq_error_iff

/-- A text is not read if it is not blank and mentions a name that is not declared. -/
theorem decode_eq_error_iff :
    table.decode text = .error cause ↔
      ¬ IsBlank text ∧ ∃ name, table.undeclared? text = some name ∧
        cause = .unknownFlag name text := by
  have hblank : Text.trimmed text.toList = [] ↔ IsBlank text := Text.trimmed_eq_nil_iff
  rw [decode]
  by_cases h : Text.trimmed text.toList = []
  · rw [if_pos h]
    refine iff_of_false (fun herror => ?_) fun herror => herror.1 (hblank.1 h)
    cases herror
  · rw [if_neg h, decodePieces_eq_error_iff]
    exact (and_iff_right (mt hblank.2 h)).symm

end FlagTable

namespace FieldKind

/-- Values that name what was not declared for a field of this kind, and how this is reported. -/
inductive Undeclared : FieldKind → List Value → Cause → Prop
  | choice {names : List String} {text : String} (hname : text ∉ names) :
      Undeclared (.choice names) [.string text] (.unknownChoice text)
  | flag {table : FlagTable} {name text : String} (hblank : ¬ FlagTable.IsBlank text)
      (hname : table.undeclared? text = some name) :
      Undeclared (.flags table) [.string text] (.unknownFlag name text)

variable {kind : FieldKind} {field : String} {vs : List Value} {cause : Cause}

theorem Undeclared.not_isMisfit (h : kind.Undeclared vs cause) : ¬ cause.IsMisfit := by
  cases h with
  | choice | flag => exact id

/-- A field of one string is given one string. -/
theorem exists_string_of_fits (htype : kind.valueType = .scalar .string)
    (hlist : kind.isList = false) (harity : kind.arity = 1) (hfits : kind.Fits vs) :
    ∃ text, vs = [.string text] := by
  rcases (fits_scalar_iff htype).1 hfits with ⟨htypes, hlength⟩
  rcases List.length_eq_one_iff.1 ((hlength hlist).trans harity) with ⟨v, rfl⟩
  have hv := htypes v List.mem_cons_self
  cases v with
  | string text => exact ⟨text, rfl⟩
  | bool | int | uint | float | object | objects => cases hv

/-- A field takes whatever has its shape, unless it has names of its own. -/
theorem takes_of_fits (hchoice : ∀ names, kind ≠ .choice names)
    (hflags : ∀ table, kind ≠ .flags table) (hfits : kind.Fits vs) : kind.Takes vs := by
  cases kind with
  | choice names => exact absurd rfl (hchoice names)
  | flags table => exact absurd rfl (hflags table)
  | scalar type =>
      rcases (fits_scalar_iff rfl).1 hfits with ⟨htypes, hlength⟩
      rcases List.length_eq_one_iff.1 (hlength rfl) with ⟨v, rfl⟩
      exact ⟨v, rfl, htypes v List.mem_cons_self⟩
  | array type count =>
      rcases (fits_scalar_iff rfl).1 hfits with ⟨htypes, hlength⟩
      exact ⟨hlength rfl, htypes⟩
  | list type => exact ((fits_scalar_iff rfl).1 hfits).1
  | object required => exact (fits_object_iff rfl).1 hfits
  | objects required => exact (fits_objects_iff rfl).1 hfits
  | raw type arity => trivial

theorem choice_eq_error_iff {names : List String} {text : String} :
    store? (.choice names) field [.string text] = .error cause ↔
      Undeclared (.choice names) [.string text] cause := by
  rw [store?, oneString_string]
  by_cases hmem : text ∈ names
  · simp only [bind, Except.bind, Literal.choice, List.contains_iff_mem.2 hmem, if_true]
    refine iff_of_false (fun h => ?_) fun h => ?_
    · cases h
    · cases h with
      | choice hname => exact hname hmem
  · simp only [bind, Except.bind, Literal.choice, List.contains_iff_mem, if_neg hmem]
    constructor
    · intro h
      cases h
      exact .choice hmem
    · intro h
      cases h
      rfl

theorem flags_eq_error_iff {table : FlagTable} {text : String} :
    store? (.flags table) field [.string text] = .error cause ↔
      Undeclared (.flags table) [.string text] cause := by
  have hdecode : store? (.flags table) field [.string text] = .error cause ↔
      table.decode text = .error cause := by
    rw [store?, oneString_string]
    exact map_eq_error_iff
  rw [hdecode, FlagTable.decode_eq_error_iff]
  constructor
  · rintro ⟨hblank, name, hname, rfl⟩
    exact .flag hblank hname
  · intro h
    cases h with
    | flag hblank hname => exact ⟨hblank, _, hname, rfl⟩

/-- Values of the right shape are not stored if and only if they name what was not declared. -/
theorem store?_eq_error_iff (hfits : kind.Fits vs) :
    kind.store? field vs = .error cause ↔ kind.Undeclared vs cause := by
  by_cases hchoice : ∃ names, kind = .choice names
  · rcases hchoice with ⟨names, rfl⟩
    rcases exists_string_of_fits rfl rfl rfl hfits with ⟨text, rfl⟩
    exact choice_eq_error_iff
  by_cases hflags : ∃ table, kind = .flags table
  · rcases hflags with ⟨table, rfl⟩
    rcases exists_string_of_fits rfl rfl rfl hfits with ⟨text, rfl⟩
    exact flags_eq_error_iff
  · -- For any other kind of field the right shape is enough.
    have htakes := takes_of_fits (fun names h => hchoice ⟨names, h⟩)
      (fun table h => hflags ⟨table, h⟩) hfits
    rcases exists_store_iff.2 htakes with ⟨content, hcontent⟩
    rw [hcontent]
    refine iff_of_false (fun h => ?_) fun h => ?_
    · cases h
    · cases h with
      | choice hname => exact hchoice ⟨_, rfl⟩
      | flag hblank hname => exact hflags ⟨_, rfl⟩

end FieldKind

/-- A fold fails at one of its steps. -/
theorem foldlM_eq_error {ε α β : Type} {f : β → α → Except ε β} {as : List α} {b : β} {e : ε}
    (h : as.foldlM f b = .error e) : ∃ a ∈ as, ∃ c, f c a = .error e := by
  induction as generalizing b with
  | nil => cases h
  | cons a as ih =>
      rw [List.foldlM_cons] at h
      rcases bind_eq_error h with hstep | ⟨c, -, hrest⟩
      · exact ⟨a, List.mem_cons_self, b, hstep⟩
      · rcases ih hrest with ⟨a', ha', hlast⟩
        exact ⟨a', List.mem_cons_of_mem _ ha', hlast⟩

theorem mapM_eq_error {ε α β : Type} {f : α → Except ε β} {as : List α} {e : ε}
    (h : as.mapM f = .error e) : ∃ a ∈ as, f a = .error e := by
  induction as with
  | nil => cases h
  | cons a as ih =>
      rw [List.mapM_cons] at h
      rcases bind_eq_error h with hfirst | ⟨b, -, h⟩
      · exact ⟨a, List.mem_cons_self, hfirst⟩
      · rcases bind_eq_error h with hrest | ⟨bs, -, h⟩
        · rcases ih hrest with ⟨a', ha', hlast⟩
          exact ⟨a', List.mem_cons_of_mem _ ha', hlast⟩
        · cases h

section

variable {reg : Registry} {heap : Heap} {field : FieldSpec} {i : Instance} {r : Ref}
  {vs : List Value} {cause : Cause}

theorem Instance.store_eq_error_iff :
    i.store field vs = .error cause ↔ field.kind.store? field.name vs = .error cause :=
  map_eq_error_iff

theorem Heap.store_eq_error_iff :
    heap.store r field vs = .error cause ↔ field.kind.store? field.name vs = .error cause :=
  map_eq_error_iff.trans Instance.store_eq_error_iff

theorem not_isMisfit_of_lookup {name : String} (h : reg.lookup name = .error cause) :
    ¬ cause.IsMisfit := by
  rw [Registry.lookup] at h
  split at h
  · cases h
  · cases h
    exact id

/-- An object of its type is copied unless it names what was not declared. -/
theorem Instance.Typed.not_isMisfit_of_copyOf (hvalid : reg.IsValid) {spec : ObjectSpec}
    {move : Ref → Ref} (h : i.Typed reg heap) (hspec : reg.find? i.typeName = some spec)
    (hcopied : Heap.copyOf spec i move = .error cause) : ¬ cause.IsMisfit := by
  rcases foldlM_eq_error hcopied with ⟨field, hfield, copy, hstep⟩
  cases hvs : i.fetch? field with
  | none => simp only [hvs, reduceCtorEq] at hstep
  | some vs =>
      simp only [hvs] at hstep
      rcases h.of_fetch hvalid hspec hfield hvs with ⟨-, hfits, -⟩
      exact ((FieldKind.store?_eq_error_iff hfits.mapRefs).1
        (Instance.store_eq_error_iff.1 hstep)).not_isMisfit

/-- So are all objects below one, if they are of their types. -/
theorem Heap.not_isMisfit_of_copy (hvalid : reg.IsValid)
    (hcopy : heap.copy reg r true = .error cause)
    (hsource : ∀ x, heap.Reaches reg.fieldsOf r x → (heap.get x).Typed reg heap) :
    ¬ cause.IsMisfit := by
  have hdeep : heap.deepCopy reg r = .error cause := map_eq_error_iff.1 hcopy
  have hcopies := map_eq_error_iff.1 hdeep
  rcases mapM_eq_error hcopies with ⟨x, hx, hfault⟩
  have hreach : heap.Reaches reg.fieldsOf r x := by
    rw [mem_preorder_iff] at hx
    simpa using hx
  rcases bind_eq_error hfault with hlookup | ⟨spec, hspec, hcopied⟩
  · exact not_isMisfit_of_lookup hlookup
  · exact (hsource x hreach).not_isMisfit_of_copyOf hvalid (Registry.lookup_eq_ok_iff.1 hspec)
      hcopied

end

end GraphText

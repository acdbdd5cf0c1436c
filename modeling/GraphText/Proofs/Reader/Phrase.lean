import GraphText.Proofs.Token.Marks
import GraphText.Reader.Rank

/-!
# Phrases of the grammar

A phrase is a derivation in the grammar of graph texts, by symbol. Everything
that stands in braces or brackets is a list whose items may be followed by
commas, so there is one pair of constructors for all lists, and a phrase says of
every item whether a comma follows it. Where commas have to stand is another
question. The grammar that the documentation gives and the grammar that the
reader goes by differ in nothing but the commas, and each of the two is a rule
for every row of items.

What a phrase means depends on the types that are registered and on the names
that are known. Both can be told before anything is read: a phrase is checked
against scopes in which a number stands for a type instead of an object, and
the check gives the scopes behind the phrase. Constants need no check, for they
are of use only where a `$` is.

## Main definitions

* `Phrase`: derivations in the grammar.
* `Phrase.lexemes`: the words of a phrase.
* `Commas`, `Phrase.obeys`: where commas stand.
* `Row.documented`, `Row.required`: the commas of the documentation, and those of the reader.
* `Phrase.check`: what is known behind a phrase, if types, fields, scalars and names are right.

## Theorems

* `readScalar_of_scalar?`: what a word is read as does not depend on where it stands.
* `exists_head`: the words that phrases begin with.
* `head_of_rest`: the words that stand behind an item of a row.
-/

namespace GraphText

/-- A word that may begin an item of a row. -/
def Lexeme.Opens (l : Lexeme) : Prop :=
  ∀ c, l = .punct c → c = '['

theorem Lexeme.name_ne_punct {text : String} {c : Char} : Lexeme.name text ≠ .punct c := by
  rintro ⟨⟩

theorem Lexeme.quoted_ne_punct {text : String} {c : Char} : Lexeme.quoted text ≠ .punct c := by
  rintro ⟨⟩

/-- The number that stands for a type: its place among the registered ones. -/
def Registry.numberOf (reg : Registry) (spec : ObjectSpec) : Ref :=
  reg.specs.idxOf spec

/-- Whether it can be told of a type that it is another one or derives from it. -/
def Registry.reaches (reg : Registry) (name target : String) : Bool :=
  reg.walk target (reg.specs.length + 1) name = some true

theorem Registry.isDerivedFrom_of_reaches {reg : Registry} {name target : String}
    (h : reg.reaches name target = true) : reg.isDerivedFrom name target = true := by
  rw [isDerivedFrom, of_decide_eq_true h]

/-- The type that an object of this name has, in scopes of types. -/
def Scopes.typeOf? (reg : Registry) (known : Scopes) (name : String) : Option ObjectSpec :=
  (known.resolve? name).bind fun n => reg.specs[n]?

namespace Reader

/-- What stands in braces or brackets, item behind item. -/
inductive Row where
  /-- the blocks of a body, and behind them its fields -/
  | body
  | fields
  | constants
  | templates
  | objects
  /-- the scalars of a field with brackets -/
  | scalars
  deriving DecidableEq

/-- The symbols of the grammar that are no lists. -/
inductive Part where
  | object
  | block
  | field
  | constant
  | value
  /-- a scalar in brackets -/
  | scalar
  deriving DecidableEq

/-- The symbols of the grammar. -/
inductive Symbol where
  | part (part : Part)
  | list (row : Row)
  deriving DecidableEq

/-- What the items of a row are. -/
def Row.item : Row → Part
  | body => .block
  | fields => .field
  | constants => .constant
  | templates | objects => .object
  | scalars => .scalar

/-- Derivations in the grammar, with the commas that stand in them. -/
inductive Phrase : Symbol → Type where
  /-- an object with a body -/
  | typed (type : String) (name : Option String) (body : Phrase (.list .body)) :
    Phrase (.part .object)
  /-- a reference by type and name, perhaps with a semicolon -/
  | mention (type name : String) (semicolon : Bool) : Phrase (.part .object)
  /-- a reference by `USE` -/
  | use (name : String) : Phrase (.part .object)
  /-- a reference by a quoted name -/
  | quoted (name : String) : Phrase (.part .object)
  /-- a reference by a bare name -/
  | bare (name : String) : Phrase (.part .object)
  | clone (template name : String) : Phrase (.part .object)
  | cloneWith (template name : String) (body : Phrase (.list .body)) : Phrase (.part .object)
  | nil {row : Row} : Phrase (.list row)
  /-- an item, perhaps a comma, and the rest of the row -/
  | cons {row : Row} (first : Phrase (.part row.item)) (comma : Bool) (rest : Phrase (.list row)) :
    Phrase (.list row)
  /-- the fields of a body, behind its blocks -/
  | fields (rest : Phrase (.list .fields)) : Phrase (.list .body)
  /-- a block of constants, with its keyword or without -/
  | constants (keyword : Bool) (items : Phrase (.list .constants)) : Phrase (.part .block)
  | templates (items : Phrase (.list .templates)) : Phrase (.part .block)
  | field (name : String) (value : Phrase (.part .value)) : Phrase (.part .field)
  | constant (name value : String) : Phrase (.part .constant)
  /-- the scalars of a field without brackets -/
  | scalars (words : List Lexeme) : Phrase (.part .value)
  | list (items : Phrase (.list .scalars)) : Phrase (.part .value)
  | object (inner : Phrase (.part .object)) : Phrase (.part .value)
  | objects (items : Phrase (.list .objects)) : Phrase (.part .value)
  | scalar (word : Lexeme) : Phrase (.part .scalar)

/-- Where commas stand in a row. -/
inductive Commas where
  /-- behind no item -/
  | none
  /-- behind any of the items -/
  | optional
  /-- behind every item, except perhaps the last one -/
  | between
  deriving DecidableEq

/-- Whether an item may do with or without a comma. -/
def Commas.allow (commas : Commas) (comma isLast : Bool) : Bool :=
  match commas with
  | none => !comma
  | optional => true
  | between => comma || isLast

/-- The commas of the documented grammar: none behind blocks, some behind constants and templates,
    and one between any two other items. -/
def Row.documented : Row → Commas
  | body => .none
  | constants | templates => .optional
  | fields | objects | scalars => .between

/-- The commas that the reader goes by. -/
def Row.required : Row → Commas :=
  fun _ => .between

/-- The character that closes a row. -/
def Row.close : Row → Char
  | body | fields => '\x7d'
  | _ => ']'

theorem Row.close_eq (row : Row) : row.close = ']' ∨ row.close = '\x7d' := by
  cases row <;> decide

namespace Phrase

/-- The words of a phrase. -/
def lexemes : {a : Symbol} → Phrase a → List Lexeme
  | _, typed type name body =>
    .name type :: (name.toList.map .quoted ++ .punct '\x7b' :: (body.lexemes ++ [.punct '\x7d']))
  | _, mention type name semicolon =>
    .name type :: .quoted name :: (if semicolon then [.punct ';'] else [])
  | _, use name => [.name "USE", .quoted name]
  | _, quoted name => [.quoted name]
  | _, bare name => [.name name]
  | _, clone template name => [.name "CLONE", .quoted template, .quoted name]
  | _, cloneWith template name body =>
    .name "CLONE" :: .quoted template :: .quoted name :: .punct '\x7b' ::
      (body.lexemes ++ [.punct '\x7d'])
  | _, nil => []
  | _, cons first comma rest =>
    first.lexemes ++ ((if comma then [.punct ','] else []) ++ rest.lexemes)
  | _, fields rest => rest.lexemes
  | _, constants keyword items =>
    (if keyword then [.name "CONSTANTS", .punct ':'] else []) ++
      .punct '[' :: (items.lexemes ++ [.punct ']'])
  | _, templates items =>
    .name "TEMPLATES" :: .punct ':' :: .punct '[' :: (items.lexemes ++ [.punct ']'])
  | _, field name value => .name name :: .punct ':' :: value.lexemes
  | _, constant name value => [.name name, .punct ':', .quoted value]
  | _, scalars words => words
  | _, list items => .punct '[' :: (items.lexemes ++ [.punct ']'])
  | _, object inner => inner.lexemes
  | _, objects items => .punct '[' :: (items.lexemes ++ [.punct ']'])
  | _, scalar word => [word]

/-- Whether a row has no items. -/
def isEmpty : {a : Symbol} → Phrase a → Bool
  | _, nil => true
  | _, fields rest => rest.isEmpty
  | _, _ => false

/-- Whether the commas of a phrase are those of these rules. -/
def obeys (rules : Row → Commas) : {a : Symbol} → Phrase a → Bool
  | _, typed _ _ body => body.obeys rules
  | _, cloneWith _ _ body => body.obeys rules
  | _, @cons row first comma rest =>
    first.obeys rules && ((rules row).allow comma rest.isEmpty && rest.obeys rules)
  | _, fields rest => rest.obeys rules
  | _, constants _ items => items.obeys rules
  | _, templates items => items.obeys rules
  | _, field _ value => value.obeys rules
  | _, list items => items.obeys rules
  | _, object inner => inner.obeys rules
  | _, objects items => items.obeys rules
  | _, _ => true

end Phrase

/-- What an object is read for. -/
inductive Role where
  | template
  /-- to be the document or the value of a field, perhaps of a required type -/
  | value (required : Option String)

namespace Role

/-- Whether an object of this type will do. -/
def accepts (reg : Registry) : Role → ObjectSpec → Bool
  | value (some required), spec => reg.reaches spec.typeName required
  | _, _ => true

/-- The scopes behind an object whose type has this number. A template must have a name. -/
def declare (role : Role) (name : String) (n : Ref) (known : Scopes) : Option Scopes :=
  match role with
  | template => if name = "" then none else some (known.defineTemplate name n)
  | value _ => some (if name = "" then known else known.define name n)

/-- The scopes behind a reference. -/
def refer (reg : Registry) (role : Role) (name : String) (known : Scopes) : Option Scopes := do
  let spec ← known.typeOf? reg name
  guard (role.accepts reg spec)
  some known

end Role

/-- What has to be known to check a part. -/
def Part.Demand : Part → Type
  | object => Role
  | block | field => ObjectSpec
  | constant => Unit
  | value => FieldSpec
  | scalar => ScalarType

/-- What has to be known to check a phrase. -/
def Symbol.Demand : Symbol → Type
  | part p => p.Demand
  | list row => row.item.Demand

/-- The value of a word as a scalar. -/
def scalar? (type : ScalarType) (word : Lexeme) : Option Value :=
  (readScalar type ⟨word, .start⟩).toOption

namespace Phrase

/-- What is known behind a phrase: nothing, unless the types of its objects are registered and
    concrete, its fields declared, its scalars read and stored, its templates named, and its
    references and clones go to objects of types that will do. -/
def check (reg : Registry) : {a : Symbol} → Phrase a → a.Demand → Scopes → Option Scopes
  | _, typed type name body, (role : Role), known => do
    guard (type ≠ "CLONE" ∧ type ≠ "USE")
    let spec ← reg.find? type
    guard (spec.isAbstract = false ∧ role.accepts reg spec = true)
    let inner ← body.check reg spec known.open
    role.declare (name.getD "") (reg.numberOf spec) inner.close
  | _, mention type name _, (role : Role), known => do
    guard (type ≠ "CLONE" ∧ type ≠ "USE")
    let spec ← reg.find? type
    let found ← known.typeOf? reg name
    guard (reg.reaches found.typeName spec.typeName = true)
    role.refer reg name known
  | _, use name, (role : Role), known => role.refer reg name known
  | _, quoted name, (role : Role), known => role.refer reg name known
  | _, bare name, (role : Role), known => do
    guard ((name ≠ "CLONE" ∧ name ≠ "USE") ∧ reg.find? name = none)
    role.refer reg name known
  | _, clone template name, (role : Role), known => do
    let n ← known.template? template
    let spec ← reg.specs[n]?
    guard (role.accepts reg spec = true)
    role.declare name n known
  | _, cloneWith template name body, (role : Role), known => do
    let n ← known.template? template
    let spec ← reg.specs[n]?
    guard (role.accepts reg spec = true)
    let inner ← body.check reg spec known.open
    role.declare name n inner.close
  | _, nil, _, known => some known
  | _, cons first _ rest, demand, known => do
    let behind ← first.check reg demand known
    rest.check reg demand behind
  | _, fields rest, spec, known => rest.check reg spec known
  | _, constants _ items, _, known => items.check reg () known
  | _, templates items, _, known => items.check reg Role.template known
  | _, field name value, (spec : ObjectSpec), known => do
    guard (name ≠ "CONSTANTS" ∧ name ≠ "TEMPLATES")
    let declared ← spec.find? name
    value.check reg declared known
  | _, constant _ _, _, known => some known
  | _, scalars words, (declared : FieldSpec), known =>
    match declared.kind.valueType with
    | .scalar type => do
      guard (declared.kind.isList = false ∧ words.length = declared.kind.arity)
      let vs ← words.mapM (scalar? type)
      guard ((declared.kind.store? declared.name vs).isOk = true)
      some known
    | _ => none
  | _, list items, (declared : FieldSpec), known =>
    match declared.kind.valueType with
    | .scalar type => do
      guard (declared.kind.isList = true)
      items.check reg type known
    | _ => none
  | _, object inner, (declared : FieldSpec), known => do
    guard (declared.kind.valueType = .object)
    inner.check reg (Role.value declared.kind.required) known
  | _, objects items, (declared : FieldSpec), known => do
    guard (declared.kind.valueType = .objectList)
    items.check reg (Role.value declared.kind.required) known
  | _, scalar word, (type : ScalarType), known => do
    guard ((scalar? type word).isSome = true)
    some known

end Phrase

section

variable {reg : Registry} {known known' : Scopes} {type : ScalarType} {word : Lexeme} {v : Value}

theorem guard_bind_eq_some {α : Type} {p : Prop} [Decidable p] {x : Option α} {a : α} :
    (do guard p; x) = some a ↔ p ∧ x = some a := by
  unfold guard
  split
  next hp => exact ⟨fun h => ⟨hp, h⟩, fun h => h.2⟩
  next hp => exact ⟨nofun, fun h => absurd h.1 hp⟩

theorem Role.refer_eq_some {role : Role} {name : String}
    (h : role.refer reg name known = some known') :
    ∃ spec, known.typeOf? reg name = some spec ∧ role.accepts reg spec = true ∧
      known' = known := by
  rcases Option.bind_eq_some_iff.1 h with ⟨spec, hspec, h⟩
  rcases guard_bind_eq_some.1 h with ⟨haccepts, h⟩
  exact ⟨spec, hspec, haccepts, (Option.some.inj h).symm⟩

/-- The value of a word does not depend on its place. -/
theorem readScalar_of_scalar? (h : scalar? type word = some v) (q : Position) :
    readScalar type ⟨word, q⟩ = .ok v := by
  have hread := eq_ok_of_toOption h
  cases type <;> cases word <;>
    first | exact hread | exact congrArg (report q) (report_ok hread) | cases hread

theorem not_punct_of_scalar? (h : scalar? type word = some v) (c : Char) : word ≠ .punct c := by
  rintro rfl
  have hread := eq_ok_of_toOption h
  cases type <;> cases hread

/-- How phrases begin that may stand in a row. -/
theorem exists_head {part : Part} {p : Phrase (.part part)} {demand : part.Demand}
    (hcheck : p.check reg demand known = some known') (hpart : part ≠ .value) :
    ∃ l ls, p.lexemes = l :: ls ∧ l.Opens := by
  cases p with
  | typed type name body => exact ⟨_, _, rfl, nofun⟩
  | mention type name semicolon => exact ⟨_, _, rfl, nofun⟩
  | use name => exact ⟨_, _, rfl, nofun⟩
  | quoted name => exact ⟨_, _, rfl, nofun⟩
  | bare name => exact ⟨_, _, rfl, nofun⟩
  | clone template name => exact ⟨_, _, rfl, nofun⟩
  | cloneWith template name body => exact ⟨_, _, rfl, nofun⟩
  | constants keyword items =>
      cases keyword with
      | true => exact ⟨_, _, rfl, nofun⟩
      | false => exact ⟨_, _, rfl, fun c hc => (Lexeme.punct.inj hc).symm⟩
  | templates items => exact ⟨_, _, rfl, nofun⟩
  | field name value => exact ⟨_, _, rfl, nofun⟩
  | constant name value => exact ⟨_, _, rfl, nofun⟩
  | scalars | list | object | objects => exact absurd rfl hpart
  | scalar word =>
      rcases guard_bind_eq_some.1 hcheck with ⟨hsome, -⟩
      rcases Option.isSome_iff_exists.1 hsome with ⟨v, hv⟩
      exact ⟨word, [], rfl, fun c hc => absurd hc (not_punct_of_scalar? hv c)⟩

/-- What stands behind an item of a row: nothing more, or a word that begins an item. -/
theorem head_of_rest {row : Row} {p : Phrase (.list row)} {demand : (Symbol.list row).Demand}
    (hcheck : p.check reg demand known = some known') (behind : List Lexeme) :
    if p.isEmpty then p.lexemes ++ behind = behind
      else ∃ l ls, p.lexemes ++ behind = l :: ls ∧ l.Opens := by
  have hcons : ∀ {row : Row} (first : Phrase (.part row.item)) (comma : Bool)
      (rest : Phrase (.list row)) {demand : (Symbol.list row).Demand},
      (Phrase.cons first comma rest).check reg demand known = some known' →
      ∃ l ls, (Phrase.cons first comma rest).lexemes ++ behind = l :: ls ∧ l.Opens := by
    intro row first comma rest demand hcheck
    rcases Option.bind_eq_some_iff.1 hcheck with ⟨known₁, hfirst, -⟩
    rcases exists_head hfirst (by cases row <;> nofun) with ⟨l, ls, hlexemes, hopens⟩
    exact ⟨l, ls ++ ((if comma then [.punct ','] else []) ++ rest.lexemes) ++ behind,
      by simp [Phrase.lexemes, hlexemes], hopens⟩
  cases p with
  | nil => rfl
  | cons first comma rest => exact hcons first comma rest hcheck
  | fields rest =>
      cases rest with
      | nil => rfl
      | cons first comma rest => exact hcons first comma rest hcheck

end

end Reader

end GraphText

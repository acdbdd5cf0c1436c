import GraphText.Spec

/-!
# Registries of types

A registry holds the types that a graph may use, by name. A type is added once
and never replaced; adding fails if the name is taken or the fields cannot be.
The base of a type need not be registered, before or after it, and nothing
keeps the bases of types from forming a circle. `walk` follows them for so many
steps, and with as many steps as a chain without repetition can have it decides
everything that can be decided. On a circle that misses what it looks for there
is no answer, and `isDerivedFrom` does not make one up: it goes on forever.

## Main definitions

* `Registry.add`: registering a type.
* `Registry.find?`, `Registry.lookup`: the type of a name.
* `Registry.walk`: following the bases of a type for some steps.
* `Registry.follow`: following them for as long as it takes.
* `Registry.isDerivedFrom`: whether a type is another one or derives from it.
* `Registry.typeNames`: the names in order.
-/

namespace GraphText

/-- The registered types, in the order of registration. -/
structure Registry where
  specs : List ObjectSpec
  deriving DecidableEq

namespace Registry

/-- The registry without types. -/
def empty : Registry := ⟨[]⟩

instance : Inhabited Registry := ⟨empty⟩

/-- The type of a name, if it is registered. -/
def find? (reg : Registry) (name : String) : Option ObjectSpec :=
  reg.specs.find? fun spec => spec.typeName = name

/-- Whether a name is registered. -/
def contains (reg : Registry) (name : String) : Bool :=
  (reg.find? name).isSome

/-- The type of a name. -/
def lookup (reg : Registry) (name : String) : Except Cause ObjectSpec :=
  match reg.find? name with
  | some spec => .ok spec
  | none => .error (.unknownType name)

theorem lookup_eq_ok_iff {reg : Registry} {name : String} {spec : ObjectSpec} :
    reg.lookup name = .ok spec ↔ reg.find? name = some spec := by
  unfold lookup
  cases reg.find? name <;> simp

/-- Registers a type. -/
def add (reg : Registry) (spec : ObjectSpec) : Except Cause Registry :=
  if reg.contains spec.typeName then .error (.duplicateType spec.typeName)
  else
    match spec.flaw? with
    | some cause => .error cause
    | none => .ok ⟨reg.specs ++ [spec]⟩

/-- Registers types in order. -/
def addAll (reg : Registry) (specs : List ObjectSpec) : Except Cause Registry :=
  specs.foldlM add reg

/-- The registered names in ascending order of their code points. -/
def typeNames (reg : Registry) : List String :=
  (reg.specs.map ObjectSpec.typeName).mergeSort fun a b => a ≤ b

/-- The base of a type, if the type is registered and has one. -/
def baseOf? (reg : Registry) (name : String) : Option String :=
  (reg.find? name).bind ObjectSpec.base

/-- Follows bases from `name` until it meets `target` or the chain ends, looking at no more than
    this many types: nothing if that was not enough to tell. -/
def walk (reg : Registry) (target : String) : Nat → String → Option Bool
  | 0, _ => none
  | n + 1, name =>
    if name = target then some true
    else
      match reg.baseOf? name with
      | none => some false
      | some parent => walk reg target n parent

/-- Follows bases from `name` until it meets `target` or the chain ends, if it ever does. -/
def follow (reg : Registry) (target name : String) : Bool :=
  Id.run <| repeatM (fun name =>
    if name = target then .inr true
    else
      match reg.baseOf? name with
      | none => .inr false
      | some parent => .inl parent) name

/-- Whether `name` is `target` or reaches it through bases. Beyond the registered types and one more
    a chain can only repeat itself, and whoever follows it has gone in a circle for good. -/
def isDerivedFrom (reg : Registry) (name target : String) : Bool :=
  match reg.walk target (reg.specs.length + 1) name with
  | some answer => answer
  | none => reg.follow target name

/-- A new object of a concrete type. -/
def create (reg : Registry) (name : String) : Except Cause Instance := do
  let spec ← reg.lookup name
  if spec.isAbstract then .error (.abstractType name) else .ok spec.create

end Registry

end GraphText

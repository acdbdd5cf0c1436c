import GraphText.Heap

/-!
# Scopes

Names in a graph text are looked up in the body they stand in and in the bodies
around it. A body has constants, objects and templates of its own, and loses
them when it ends. Objects are remembered beyond that: every object named in
the document stays known by its name, the latest one if there were several, but
only a name that no open body knows is looked up there.

A template does not hide an object, nor an object a template, in the same body:
a reference takes the object, and `CLONE` the template.

## Main definitions

* `Scope`: the names of one body.
* `Scopes`: the open bodies and the names of the document.
* `Scopes.constant?`, `Scopes.resolve?`, `Scopes.template?`: looking names up.

## Theorems

* `Scopes.close_open`: a body that was opened and closed leaves nothing behind.
-/

namespace GraphText

/-- The names of one body. -/
structure Scope where
  constants : Table String := .empty
  objects : Table Ref := .empty
  templates : Table Ref := .empty
  deriving DecidableEq

/-- The scopes of the open bodies, the innermost first, around them the scope of the document
    itself, and the objects of the document by name. -/
structure Scopes where
  bodies : List Scope := []
  outermost : Scope := {}
  document : Table Ref := .empty
  deriving DecidableEq

namespace Scopes

/-- All open scopes, the innermost first. -/
def all (s : Scopes) : List Scope :=
  s.bodies ++ [s.outermost]

/-- Opens a body. -/
def «open» (s : Scopes) : Scopes :=
  { s with bodies := {} :: s.bodies }

/-- Closes the innermost body. The scope of the document stays. -/
def close (s : Scopes) : Scopes :=
  { s with bodies := s.bodies.tail }

/-- Changes the innermost scope. -/
def modify (s : Scopes) (f : Scope → Scope) : Scopes :=
  match s.bodies with
  | [] => { s with outermost := f s.outermost }
  | scope :: rest => { s with bodies := f scope :: rest }

/-- Defines a constant in the innermost scope. -/
def defineConstant (s : Scopes) (name value : String) : Scopes :=
  s.modify fun scope => { scope with constants := scope.constants.insert name value }

/-- Names an object in the innermost scope and in the document. -/
def define (s : Scopes) (name : String) (r : Ref) : Scopes :=
  let inner := s.modify fun scope => { scope with objects := scope.objects.insert name r }
  { inner with document := s.document.insert name r }

/-- Names a template in the innermost scope. -/
def defineTemplate (s : Scopes) (name : String) (r : Ref) : Scopes :=
  s.modify fun scope => { scope with templates := scope.templates.insert name r }

/-- The value of a constant, from the innermost scope that has one. -/
def constant? (s : Scopes) (name : String) : Option String :=
  s.all.findSome? fun scope => scope.constants.find? name

/-- The object of a name: from the innermost scope that has an object or a template of this name,
    the object first, and otherwise from the document. -/
def resolve? (s : Scopes) (name : String) : Option Ref :=
  (s.all.findSome? fun scope =>
    (scope.objects.find? name).or (scope.templates.find? name)).or (s.document.find? name)

/-- The template of a name, from the innermost scope that has one, and otherwise the object. -/
def template? (s : Scopes) (name : String) : Option Ref :=
  (s.all.findSome? fun scope => scope.templates.find? name).or (s.resolve? name)

@[simp] theorem close_open (s : Scopes) : s.open.close = s := rfl

end Scopes

end GraphText

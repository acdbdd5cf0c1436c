import GraphText.Reader.Turn

/-!
# Steps of a reader

A step looks at the next token of the innermost document. If it is a `$`, the
constant whose name follows is expanded in front of what is left. Otherwise the
reader makes its turn, and the step changes documents if the turn says so: it
opens the file of an include, or goes back to the document that waits for the
one that has ended.

A file is opened only if it is not open already, in any spelling, and only if
fewer files are open than the options allow; both are asked before the file is
read. An include that cannot be opened is reported where it stands; a file that
reading starts with and that cannot be opened is reported without a place.

## Main definitions

* `Environment`: what reading depends on and never changes.
* `openFile`: the document of a file.
* `step`: one step.
-/

namespace GraphText.Reader

/-- What reading depends on and never changes. -/
structure Environment where
  registry : Registry
  files : FileSystem
  options : Options

/-- The document of a file, and the key by which the file is known, while others are open. -/
def openFile (env : Environment) (isOpen : List Path) (path : Path) :
    Except Cause (Path × Document) :=
  let key := env.files.key path
  if key.isIn isOpen then .error (.includeCycle path)
  else if env.options.maxIncludeDepth ≤ isOpen.length then
    .error (.includeTooDeep env.options.maxIncludeDepth path)
  else
    match env.files.read path with
    | .error reason => .error (.unreadable path reason)
    | .ok text => .ok (key, .ofText path path.directory text)

/-- Reports a fault in a document. -/
def Document.located {α : Type} (doc : Document) (result : Result α) : Except Error α :=
  result.mapError fun (cause, p) => ⟨cause, some (doc.locate p)⟩

/-- Reads the next token of a document as it is. -/
def Document.read (doc : Document) (tokens : TokenStream) : Except Error (Token × TokenStream) :=
  doc.located (tokens.next.mapError fun (flaw, p) => (.badString flaw, p))

/-- Expands the constant whose name should stand behind a `$`, which stands at `origin`. -/
def Document.expand (env : Environment) (doc : Document) (origin : Position)
    (behind : TokenStream) : Except Error Document := do
  let (token, after) ← doc.read behind
  doc.located <|
    match token.lexeme with
    | .name name =>
      match doc.context.scopes.constant? name with
      | none => .error (.unknownConstant name, token.position)
      | some value =>
        -- Layers that ended before the name have been left, and do not count.
        if env.options.maxSubstitutionDepth ≤ after.depth then
          .error (.substitutionTooDeep name, token.position)
        else .ok { doc with tokens := after.splice value origin }
    | _ => unexpected .constantAfterDollar token

/-- Goes back to the document that waits for an include, with its object. -/
def State.resume (env : Environment) (s : State) (w : Waiting) (rest : List Waiting) (root : Ref) :
    Except Error State := do
  let (heap, context) ← w.document.located
    (complete env.registry s.heap w.document.context w.target root w.start)
  .ok { s with heap, document := { w.document with context }, waiting := rest }

/-- Opens the file of an include in the innermost document, of which `after` is left. -/
def State.enter (env : Environment) (s : State) (after : TokenStream) (path : String)
    (start : Position) (target : Target) : Except Error State := do
  let doc := s.document
  let path := doc.directory.join ⟨path⟩
  let (file, included) ← doc.located (report start (openFile env s.openFiles path))
  .ok { s with
    dependencies := s.dependencies ++ [⟨doc.source, path⟩]
    document := included
    waiting := { document := { doc with tokens := after }, start, target, file } :: s.waiting }

/-- One step: to another state, or to the end. -/
def step (env : Environment) (s : State) : Except Error (State ⊕ Output) := do
  let doc := s.document
  let (token, after) ← doc.read doc.tokens
  if token.lexeme = .punct '$' then
    let document ← doc.expand env token.position after
    .ok (.inl { s with document })
  else
    match ← doc.located (turn env.registry doc.source s.heap doc.context token) with
    | .take heap context =>
      .ok (.inl { s with heap, document := { doc with tokens := after, context } })
    | .keep heap context => .ok (.inl { s with heap, document := { doc with context } })
    | .enter path start target => (s.enter env after path start target).map .inl
    | .leave root =>
      match s.waiting with
      | [] => .ok (.inr ⟨s.heap, root, s.dependencies⟩)
      | w :: rest => (s.resume env w rest root).map .inl

end GraphText.Reader

import GraphText.FileSystem
import GraphText.Heap.Copy
import GraphText.Reader.State

/-!
# Turns of a reader

What the reader does with the token it looks at, given the mode. Here is the
grammar of graph texts:

* an object is a type name, perhaps a quoted name, and a body; a reference, by
  `USE` and a quoted name, by a quoted name alone, by a type name and a quoted
  name, or by a bare name that is no type; a `CLONE` of a template under a new
  name, perhaps with a body; or an include, a quoted path in angle brackets;
* a body is a list of items in braces: first any number of blocks of constants
  and of templates, then fields; a comma stands between items and may stand
  behind the last;
* a field is its name, a colon and its value, whose form depends on the kind of
  the field.

A turn does not read: it says whether the token is taken, and what becomes of
the objects and of the context. Errors are reported as a cause and a position,
and every error of the grammar has a position.

## Main definitions

* `Turn`: what can be done with a token.
* `declare`, `deliver`: what happens to an object that has been read.
* `turn`: what the reader does.
-/

namespace GraphText.Reader

/-- What is done with the token that the reader looks at. -/
inductive Turn where
  /-- it is taken -/
  | take (heap : Heap) (context : Context)
  /-- it is looked at once more -/
  | keep (heap : Heap) (context : Context)
  /-- it is taken, and closes an include at `start` whose object goes to `target` -/
  | enter (path : String) (start : Position) (target : Target)
  /-- it is the end, and this is the object of the document -/
  | leave (root : Ref)

/-- A cause and the position in the document that it is reported at. -/
abbrev Fault := Cause × Position

/-- A result that fails with a fault. -/
abbrev Result (α : Type) := Except Fault α

/-- Reports a cause at a position. -/
def report {α : Type} (p : Position) (result : Except Cause α) : Result α :=
  result.mapError fun cause => (cause, p)

/-- Fails because something else should stand where this token stands. -/
def unexpected {α : Type} (what : Expectation) (token : Token) : Result α :=
  .error (.expected what token.lexeme, token.position)

namespace Context

/-- The same context in another mode. -/
def enter (c : Context) (mode : Mode) : Context := { c with mode }

/-- The context behind a field of the innermost body. -/
def afterField (c : Context) : Context :=
  { c with
    mode := .itemEnd
    bodies :=
      match c.bodies with
      | [] => []
      | body :: rest => { body with seenField := true } :: rest }

/-- The context inside a new body. -/
def openBody (c : Context) (body : Body) : Context :=
  { scopes := c.scopes.open, bodies := body :: c.bodies, mode := .item }

end Context

/-- Stores the value of a field, which starts at `start`, in the object of the innermost body. -/
def storeField (heap : Heap) (c : Context) (field : FieldSpec) (start : Position)
    (vs : List Value) : Result (Heap × Context) :=
  match c.bodies with
  | [] => .ok (heap, c.afterField)
  | body :: _ => do
    let heap ← report start (heap.store body.object field vs)
    .ok (heap, c.afterField)

/-- Fails if an object, met at `p`, is not of the type that the field requires. -/
def checkObject (reg : Registry) (heap : Heap) (field : FieldSpec) (r : Ref) (p : Position) :
    Result Unit :=
  match field.kind.required with
  | none => .ok ()
  | some required =>
    let actual := (heap.get r).typeName
    if reg.isDerivedFrom actual required then .ok ()
    else .error (.wrongObject field.name required actual, p)

/-- Brings an object that has been read to its target. -/
def deliver (reg : Registry) (heap : Heap) (c : Context) (target : Target) (r : Ref) :
    Result (Heap × Context) :=
  match target with
  | .root => .ok (heap, c.enter (.finished r))
  | .template => .ok (heap, c.enter .templateEnd)
  | .field field start => do
    checkObject reg heap field r start
    storeField heap c field start [.object r]
  | .element field start first before => do
    checkObject reg heap field r first
    .ok (heap, c.enter (.elementEnd field start (before ++ [r])))

/-- Names an object that has been read at `start` by the name it has: a template among the
    templates, any other among the objects. Only templates need a name. -/
def declare (heap : Heap) (c : Context) (target : Target) (r : Ref) (start : Position) :
    Result Context :=
  match (heap.get r).name, target with
  | some name, .template => .ok { c with scopes := c.scopes.defineTemplate name r }
  | some name, _ => .ok { c with scopes := c.scopes.define name r }
  | none, .template => .error (.unnamedTemplate, start)
  | none, _ => .ok c

/-- Names an object that has been read at `start` and brings it to its target. -/
def complete (reg : Registry) (heap : Heap) (c : Context) (target : Target) (r : Ref)
    (start : Position) : Result (Heap × Context) := do
  let c ← declare heap c target r start
  deliver reg heap c target r

/-- The object that a name refers to. -/
def resolve (c : Context) (name : String) (p : Position) : Result Ref :=
  match c.scopes.resolve? name with
  | some r => .ok r
  | none => .error (.missingObject name, p)

/-- The object that a type name at `start` and a name refer to. -/
def resolveTyped (reg : Registry) (heap : Heap) (c : Context) (spec : ObjectSpec) (name : String)
    (start : Position) : Result Ref :=
  match c.scopes.resolve? name with
  | some r =>
    if reg.isDerivedFrom (heap.get r).typeName spec.typeName then .ok r
    else .error (.wrongReference spec.typeName name, start)
  | none => .error (.wrongReference spec.typeName name, start)

/-- Takes the token behind which an object is complete. -/
def takeWith (result : Result (Heap × Context)) : Result Turn :=
  result.map fun (heap, c) => .take heap c

/-- Keeps the token before which an object is complete. -/
def keepWith (result : Result (Heap × Context)) : Result Turn :=
  result.map fun (heap, c) => .keep heap c

/-- Takes the brace that opens the body of a new object. -/
def openObject (source : Path) (heap : Heap) (c : Context) (spec : ObjectSpec) (start : Position)
    (name : String) (target : Target) : Result Turn :=
  if spec.isAbstract then .error (.abstractType spec.typeName, start)
  else
    let object := { spec.create.withName name with location := some ⟨source, start⟩ }
    .ok (.take (heap.alloc object) (c.openBody { object := heap.size, spec, start, target }))

/-- Takes the brace that closes the innermost body. -/
def closeBody (reg : Registry) (heap : Heap) (c : Context) : Result Turn :=
  match c.bodies with
  | [] => .ok (.take heap (c.enter .itemEnd))
  | body :: rest =>
    -- An object is named in the scope around its body, once the body is closed.
    takeWith (complete reg heap { c with scopes := c.scopes.close, bodies := rest } body.target
      body.object body.start)

/-- The value of a word as a scalar. A truth value or a number may be bare or quoted. -/
def readScalar (type : ScalarType) (token : Token) : Result Value :=
  match type with
  | .string =>
    match token.lexeme with
    | .quoted text => .ok (.string text)
    | other => .error (.notLiteral .string other, token.position)
  | other =>
    match token.lexeme.literal? with
    | none => .error (.notLiteral other token.lexeme, token.position)
    | some text =>
      report token.position <|
        match other with
        | .bool => (Literal.bool text).map Value.bool
        | .int => (Literal.int text).map Value.int
        | .uint => (Literal.uint text).map Value.uint
        | .float => (Literal.float text).map Value.float
        | .string => .ok (.string text)

/-- Takes a scalar of a field without brackets. -/
def takeScalar (heap : Heap) (c : Context) (field : FieldSpec) (type : ScalarType)
    (start : Position) (more : Nat) (before : List Value) (token : Token) : Result Turn := do
  let v ← readScalar type token
  match more with
  | 0 => takeWith (storeField heap c field start (before ++ [v]))
  | n + 1 => .ok (.take heap (c.enter (.scalar field type start n (before ++ [v]))))

/-- Looks at the first token of an object. -/
def beginObject (reg : Registry) (heap : Heap) (c : Context) (target : Target) (token : Token) :
    Result Turn :=
  let p := token.position
  match token.lexeme with
  | .punct '<' => .ok (.take heap (c.enter (.including p target)))
  | .quoted name => do
    let r ← resolve c name p
    takeWith (deliver reg heap c target r)
  | .name word =>
    if word = "CLONE" then .ok (.take heap (c.enter (.cloning p target)))
    else if word = "USE" then .ok (.take heap (c.enter (.used target)))
    else
      -- A bare name of a registered type always begins an object of that type.
      match reg.find? word, c.scopes.resolve? word with
      | some spec, _ => .ok (.take heap (c.enter (.typed spec p target)))
      | none, some r => takeWith (deliver reg heap c target r)
      | none, none => .error (.unknownType word, p)
  | .eof => .error (.noObject, p)
  | other => .error (.badTypeName other, p)

/-- Takes the new name of a copy, and makes the copy. -/
def makeCopy (reg : Registry) (source : Path) (heap : Heap) (c : Context) (start : Position)
    (template : String) (templateStart : Position) (name : String) (target : Target) :
    Result Turn :=
  match c.scopes.template? template with
  | none => .error (.missingTemplate template, templateStart)
  | some r => do
    let (heap, copy) ← report start (heap.copy reg r true)
    let heap := heap.modify copy fun i =>
      { i.withName name with location := some ⟨source, start⟩ }
    .ok (.take heap (c.enter (.cloned copy start target)))

/-- Takes a token that begins a block, unless there has been a field. -/
def beginBlock (heap : Heap) (c : Context) (block : Block) (mode : Mode) (token : Token) :
    Result Turn :=
  match c.bodies with
  | { seenField := true, .. } :: _ => .error (.blockAfterFields block, token.position)
  | _ => .ok (.take heap (c.enter mode))

/-- Takes the name of a field of the innermost body. -/
def beginField (heap : Heap) (c : Context) (name : String) (token : Token) : Result Turn :=
  match c.bodies with
  | [] => .error (.unknownField name "", token.position)
  | body :: _ =>
    match body.spec.find? name with
    | none => .error (.unknownField name body.spec.typeName, token.position)
    | some field => .ok (.take heap (c.enter (.fieldColon field)))

/-- Looks at the first token of an item of a body. -/
def beginItem (reg : Registry) (heap : Heap) (c : Context) (token : Token) : Result Turn :=
  match token.lexeme with
  | .punct '\x7d' => closeBody reg heap c
  -- The brackets of the constants may stand without their keyword.
  | .punct '[' => beginBlock heap c .constants .constant token
  | .name word =>
    if word = "CONSTANTS" then beginBlock heap c .constants .constantsColon token
    else if word = "TEMPLATES" then beginBlock heap c .templates .templatesColon token
    else beginField heap c word token
  | _ => unexpected .field token

/-- Looks at the first token of the value of a field. -/
def beginValue (heap : Heap) (c : Context) (field : FieldSpec) (token : Token) : Result Turn :=
  let p := token.position
  match field.kind.valueType with
  | .object => .ok (.keep heap (c.enter (.object (.field field p))))
  | .objectList =>
    if token.lexeme = .punct '[' then .ok (.take heap (c.enter (.element field p [])))
    else unexpected (.character '[') token
  | .scalar type =>
    if field.kind.isList then
      if token.lexeme = .punct '[' then .ok (.take heap (c.enter (.listItem field type p [])))
      else unexpected (.character '[') token
    else
      match field.kind.arity with
      | 0 => keepWith (storeField heap c field p [])
      | n + 1 => takeScalar heap c field type p n [] token

/-- Takes one certain character. -/
def takeCharacter (heap : Heap) (c : Context) (character : Char) (mode : Mode) (token : Token) :
    Result Turn :=
  if token.lexeme = .punct character then .ok (.take heap (c.enter mode))
  else unexpected (.character character) token

/-- Takes a comma, or leaves the closing character where it is. -/
def takeSeparator (heap : Heap) (c : Context) (close : Char) (mode : Mode) (token : Token) :
    Result Turn :=
  if token.lexeme = .punct ',' then .ok (.take heap (c.enter mode))
  else if token.lexeme = .punct close then .ok (.keep heap (c.enter mode))
  else unexpected (.separator close) token

/-- What the reader does with the token it looks at in the document called `source`. -/
def turn (reg : Registry) (source : Path) (heap : Heap) (c : Context) (token : Token) :
    Result Turn :=
  let p := token.position
  match c.mode with
  | .object target => beginObject reg heap c target token
  | .used target =>
    match token.lexeme with
    | .quoted name => do
      let r ← resolve c name p
      takeWith (deliver reg heap c target r)
    | _ => unexpected (.quoted .referenced) token
  | .typed spec start target =>
    match token.lexeme with
    | .quoted name => .ok (.take heap (c.enter (.named spec start name target)))
    | .punct '\x7b' => openObject source heap c spec start "" target
    | _ => unexpected (.character '\x7b') token
  | .named spec start name target =>
    match token.lexeme with
    | .punct '\x7b' => openObject source heap c spec start name target
    -- A semicolon closes a reference, and nothing has to.
    | .punct ';' => do
      let r ← resolveTyped reg heap c spec name start
      takeWith (deliver reg heap c target r)
    | _ => do
      let r ← resolveTyped reg heap c spec name start
      keepWith (deliver reg heap c target r)
  | .cloning start target =>
    match token.lexeme with
    | .quoted template => .ok (.take heap (c.enter (.cloningFrom start template p target)))
    | _ => unexpected (.quoted .template) token
  | .cloningFrom start template templateStart target =>
    match token.lexeme with
    | .quoted name => makeCopy reg source heap c start template templateStart name target
    | _ => unexpected (.quoted .cloneName) token
  | .cloned copy start target =>
    if token.lexeme = .punct '\x7b' then do
      let spec ← report start (reg.lookup (heap.get copy).typeName)
      .ok (.take heap (c.openBody { object := copy, spec, start, target }))
    else keepWith (complete reg heap c target copy start)
  | .including start target =>
    match token.lexeme with
    | .quoted path =>
      if path = "" then .error (.emptyPath, p)
      else .ok (.take heap (c.enter (.includingPath start path target)))
    | _ => unexpected (.quoted .includePath) token
  | .includingPath start path target =>
    if token.lexeme = .punct '>' then .ok (.enter path start target)
    else unexpected (.character '>') token
  | .item => beginItem reg heap c token
  | .itemEnd => takeSeparator heap c '\x7d' .item token
  | .constantsColon => takeCharacter heap c ':' .constantsOpen token
  | .constantsOpen => takeCharacter heap c '[' .constant token
  | .constant =>
    match token.lexeme with
    | .punct ']' => .ok (.take heap (c.enter .itemEnd))
    | .name name => .ok (.take heap (c.enter (.constantColon name)))
    | _ => unexpected .constant token
  | .constantColon name => takeCharacter heap c ':' (.constantValue name) token
  | .constantValue name =>
    match token.lexeme with
    | .quoted value =>
      .ok (.take heap { c with scopes := c.scopes.defineConstant name value, mode := .constantEnd })
    | _ => unexpected (.quoted .constantValue) token
  | .constantEnd => takeSeparator heap c ']' .constant token
  | .templatesColon => takeCharacter heap c ':' .templatesOpen token
  | .templatesOpen => takeCharacter heap c '[' .template token
  | .template =>
    if token.lexeme = .punct ']' then .ok (.take heap (c.enter .itemEnd))
    else .ok (.keep heap (c.enter (.object .template)))
  | .templateEnd => takeSeparator heap c ']' .template token
  | .fieldColon field => takeCharacter heap c ':' (.fieldValue field) token
  | .fieldValue field => beginValue heap c field token
  | .scalar field type start more before =>
    takeScalar heap c field type start more before token
  | .listItem field type start before =>
    if token.lexeme = .punct ']' then takeWith (storeField heap c field start before)
    else do
      let v ← readScalar type token
      .ok (.take heap (c.enter (.listEnd field type start (before ++ [v]))))
  | .listEnd field type start before =>
    takeSeparator heap c ']' (.listItem field type start before) token
  | .element field start before =>
    if token.lexeme = .punct ']' then takeWith (storeField heap c field start [.objects before])
    else .ok (.keep heap (c.enter (.object (.element field start p before))))
  | .elementEnd field start before =>
    takeSeparator heap c ']' (.element field start before) token
  | .finished root =>
    if token.lexeme = .eof then .ok (.leave root) else unexpected .endOfInput token

end GraphText.Reader

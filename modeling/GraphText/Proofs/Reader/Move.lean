import GraphText.Proofs.Heap.Graph
import GraphText.Reader.Rank

/-!
# What a turn can do

Most turns only change the mode. The others do one of seven things: they define
a constant, resolve a name, open a new object, make a copy, open the body of a
copy, end an object, or store values. `Move` lists them with everything that
the reader has made sure of by then, so a fact about all turns is a case for
each of these things and nothing about the grammar.

Whether the token is taken or kept is left out. It matters to what is read
next, and to nothing that happens to the objects and the scopes.

## Main definitions

* `Leads`: the modes that a token leads to when nothing else changes.
* `Refers`, `Gathers`: where a reference and the values of a field come from.
* `Move`: what a turn does to the objects and the context.
* `Ends`: the moves with which the reading of an object ends.

## Theorems

* `turn_cases`: every turn is a move, or enters or leaves a document.
-/

namespace GraphText.Reader

/-- The target of the object that the mode is about. -/
def Mode.target? : Mode → Option Target
  | object target | used target | typed _ _ target | named _ _ _ target | cloning _ target
  | cloningFrom _ _ _ target | cloned _ _ target | including _ target
  | includingPath _ _ target => some target
  | _ => none

/-- The mode that a token leads to, when nothing but the mode changes. -/
inductive Leads (reg : Registry) (c : Context) (token : Token) : Mode → Mode → Prop where
  | include {target} (h : token.lexeme = .punct '<') :
      Leads reg c token (.object target) (.including token.position target)
  | clone {target} (h : token.lexeme = .name "CLONE") :
      Leads reg c token (.object target) (.cloning token.position target)
  | use {target} (h : token.lexeme = .name "USE") :
      Leads reg c token (.object target) (.used target)
  | type {target word spec} (h : token.lexeme = .name word) (hclone : word ≠ "CLONE")
      (huse : word ≠ "USE") (hspec : reg.find? word = some spec) :
      Leads reg c token (.object target) (.typed spec token.position target)
  | objectName {spec start target name} (h : token.lexeme = .quoted name) :
      Leads reg c token (.typed spec start target) (.named spec start name target)
  | template {start target name} (h : token.lexeme = .quoted name) :
      Leads reg c token (.cloning start target) (.cloningFrom start name token.position target)
  | path {start target path} (h : token.lexeme = .quoted path) (hne : path ≠ "") :
      Leads reg c token (.including start target) (.includingPath start path target)
  | bareConstants (h : token.lexeme = .punct '[') : Leads reg c token .item .constant
  | constants (h : token.lexeme = .name "CONSTANTS") : Leads reg c token .item .constantsColon
  | templates (h : token.lexeme = .name "TEMPLATES") : Leads reg c token .item .templatesColon
  | field {word body rest field} (h : token.lexeme = .name word) (hconstants : word ≠ "CONSTANTS")
      (htemplates : word ≠ "TEMPLATES") (hbodies : c.bodies = body :: rest)
      (hfield : body.spec.find? word = some field) : Leads reg c token .item (.fieldColon field)
  | closeNothing (h : token.lexeme = .punct '\x7d') (hbodies : c.bodies = []) :
      Leads reg c token .item .itemEnd
  | itemNext : Leads reg c token .itemEnd .item
  | constantsColon : Leads reg c token .constantsColon .constantsOpen
  | constantsOpen : Leads reg c token .constantsOpen .constant
  | constantsClose : Leads reg c token .constant .itemEnd
  | constantName {name} (h : token.lexeme = .name name) :
      Leads reg c token .constant (.constantColon name)
  | constantColon {name} : Leads reg c token (.constantColon name) (.constantValue name)
  | constantNext : Leads reg c token .constantEnd .constant
  | templatesColon : Leads reg c token .templatesColon .templatesOpen
  | templatesOpen : Leads reg c token .templatesOpen .template
  | templatesClose : Leads reg c token .template .itemEnd
  | templateFirst : Leads reg c token .template (.object .template)
  | templateNext : Leads reg c token .templateEnd .template
  | fieldColon {field} : Leads reg c token (.fieldColon field) (.fieldValue field)
  | valueObject {field} (htype : field.kind.valueType = .object) :
      Leads reg c token (.fieldValue field) (.object (.field field token.position))
  | valueObjects {field} (htype : field.kind.valueType = .objectList) :
      Leads reg c token (.fieldValue field) (.element field token.position [])
  | valueList {field type} (htype : field.kind.valueType = .scalar type)
      (hlist : field.kind.isList = true) :
      Leads reg c token (.fieldValue field) (.listItem field type token.position [])
  | valueFirst {field type more v} (htype : field.kind.valueType = .scalar type)
      (hlist : field.kind.isList = false) (harity : field.kind.arity = more + 2)
      (hv : readScalar type token = .ok v) :
      Leads reg c token (.fieldValue field) (.scalar field type token.position more [v])
  | valueNext {field type start more before v} (hv : readScalar type token = .ok v) :
      Leads reg c token (.scalar field type start (more + 1) before)
        (.scalar field type start more (before ++ [v]))
  | listItem {field type start before v} (hv : readScalar type token = .ok v) :
      Leads reg c token (.listItem field type start before)
        (.listEnd field type start (before ++ [v]))
  | listNext {field type start before} :
      Leads reg c token (.listEnd field type start before) (.listItem field type start before)
  | elementFirst {field start before} :
      Leads reg c token (.element field start before)
        (.object (.element field start token.position before))
  | elementNext {field start before} :
      Leads reg c token (.elementEnd field start before) (.element field start before)

/-- The object that a reference for a target stands for. -/
inductive Refers (reg : Registry) (heap : Heap) (c : Context) (token : Token) :
    Mode → Target → Ref → Prop where
  | used {target name r} (h : token.lexeme = .quoted name)
      (hr : c.scopes.resolve? name = some r) : Refers reg heap c token (.used target) target r
  | quoted {target name r} (h : token.lexeme = .quoted name)
      (hr : c.scopes.resolve? name = some r) : Refers reg heap c token (.object target) target r
  | bare {target name r} (h : token.lexeme = .name name) (hspec : reg.find? name = none)
      (hr : c.scopes.resolve? name = some r) : Refers reg heap c token (.object target) target r
  | typed {spec start name target r} (hr : c.scopes.resolve? name = some r)
      (hspec : reg.isDerivedFrom (heap.get r).typeName spec.typeName = true) :
      Refers reg heap c token (.named spec start name target) target r

/-- The values that a field, whose value starts at a position, is given by a token. -/
inductive Gathers (token : Token) : Mode → FieldSpec → Position → List Value → Prop where
  | last {field type start before v} (hv : readScalar type token = .ok v) :
      Gathers token (.scalar field type start 0 before) field start (before ++ [v])
  | only {field type v} (htype : field.kind.valueType = .scalar type)
      (hlist : field.kind.isList = false) (harity : field.kind.arity = 1)
      (hv : readScalar type token = .ok v) :
      Gathers token (.fieldValue field) field token.position [v]
  | none {field type} (htype : field.kind.valueType = .scalar type)
      (hlist : field.kind.isList = false) (harity : field.kind.arity = 0) :
      Gathers token (.fieldValue field) field token.position []
  | list {field type start before} :
      Gathers token (.listItem field type start before) field start before
  | objects {field start before} :
      Gathers token (.element field start before) field start [.objects before]

/-- The object that is behind a type name, and perhaps a name, in front of its body. -/
inductive Opens : Mode → ObjectSpec → Position → String → Target → Prop where
  | unnamed {spec start target} : Opens (.typed spec start target) spec start "" target
  | named {spec start name target} : Opens (.named spec start name target) spec start name target

/-- A new object, as it is when its body opens. -/
def newObject (source : Path) (spec : ObjectSpec) (start : Position) (name : String) : Instance :=
  { spec.create.withName name with location := some ⟨source, start⟩ }

/-- A copy under its new name, at the place where it is made. -/
def renamedCopy (source : Path) (start : Position) (name : String) (i : Instance) : Instance :=
  { i.withName name with location := some ⟨source, start⟩ }

/-- What a turn in the document called `source` does to the objects and the context. -/
inductive Move (reg : Registry) (source : Path) (heap : Heap) (c : Context) (token : Token) :
    Heap → Context → Prop where
  | lead {mode} (h : Leads reg c token c.mode mode) :
      Move reg source heap c token heap (c.enter mode)
  | constant {name value} (hmode : c.mode = .constantValue name)
      (h : token.lexeme = .quoted value) :
      Move reg source heap c token heap
        { c with scopes := c.scopes.defineConstant name value, mode := .constantEnd }
  | refer {target r heap' c'} (h : Refers reg heap c token c.mode target r)
      (hdeliver : deliver reg heap c target r = .ok (heap', c')) :
      Move reg source heap c token heap' c'
  | openNew {spec start name target} (h : Opens c.mode spec start name target)
      (hconcrete : spec.isAbstract = false) :
      Move reg source heap c token (heap.alloc (newObject source spec start name))
        (c.openBody { object := heap.size, spec, start, target })
  | copy {start template templateStart name target r heap' copy}
      (hmode : c.mode = .cloningFrom start template templateStart target)
      (h : token.lexeme = .quoted name) (hr : c.scopes.template? template = some r)
      (hcopy : heap.copy reg r true = .ok (heap', copy)) :
      Move reg source heap c token (heap'.modify copy (renamedCopy source start name))
        (c.enter (.cloned copy start target))
  | openCopy {copy start target spec} (hmode : c.mode = .cloned copy start target)
      (h : token.lexeme = .punct '\x7b')
      (hspec : reg.find? (heap.get copy).typeName = some spec) :
      Move reg source heap c token heap (c.openBody { object := copy, spec, start, target })
  | endCopy {copy start target heap' c'} (hmode : c.mode = .cloned copy start target)
      (h : token.lexeme ≠ .punct '\x7b')
      (hcomplete : complete reg heap c target copy start = .ok (heap', c')) :
      Move reg source heap c token heap' c'
  | close {body rest heap' c'} (hmode : c.mode = .item) (h : token.lexeme = .punct '\x7d')
      (hbodies : c.bodies = body :: rest)
      (hcomplete : complete reg heap { c with scopes := c.scopes.close, bodies := rest }
        body.target body.object body.start = .ok (heap', c')) :
      Move reg source heap c token heap' c'
  | store {field start vs heap' c'} (h : Gathers token c.mode field start vs)
      (hstore : storeField heap c field start vs = .ok (heap', c')) :
      Move reg source heap c token heap' c'

/-- The turn with which the reading of an object ends: the object is brought to its target. -/
inductive Ends (reg : Registry) (heap : Heap) (c : Context) (token : Token) :
    Ref → Target → Heap → Context → Prop where
  /-- a reference stands for the object -/
  | reference {target r heap' c'} (h : Refers reg heap c token c.mode target r)
      (hdeliver : deliver reg heap c target r = .ok (heap', c')) :
      Ends reg heap c token r target heap' c'
  /-- no body follows behind a copy -/
  | copy {copy start target heap' c'} (hmode : c.mode = .cloned copy start target)
      (h : token.lexeme ≠ .punct '\x7b')
      (hcomplete : complete reg heap c target copy start = .ok (heap', c')) :
      Ends reg heap c token copy target heap' c'
  /-- the body of a new object or of a copy is closed -/
  | body {body rest heap' c'} (hmode : c.mode = .item) (h : token.lexeme = .punct '\x7d')
      (hbodies : c.bodies = body :: rest)
      (hcomplete : complete reg heap { c with scopes := c.scopes.close, bodies := rest }
        body.target body.object body.start = .ok (heap', c')) :
      Ends reg heap c token body.object body.target heap' c'

/-- What a word is read as is of the type that was asked for. -/
theorem type_of_readScalar {type : ScalarType} {token : Token} {v : Value}
    (h : readScalar type token = .ok v) : v.type = .scalar type := by
  cases type with
  | string =>
      simp only [readScalar] at h
      split at h
      · cases h
        rfl
      · cases h
  | bool | int | uint | float =>
      simp only [readScalar] at h
      split at h
      · cases h
      · rcases map_eq_ok (report_ok h) with ⟨_, _, rfl⟩
        rfl

/-- What a word is read as refers to nothing. -/
theorem refs_of_readScalar {type : ScalarType} {token : Token} {v : Value}
    (h : readScalar type token = .ok v) : v.refs = [] :=
  Value.refs_of_type (type_of_readScalar h)

/-- What every turn comes to: a move, the file of an include, or the end of a document. -/
def Turn.Explained (reg : Registry) (source : Path) (heap : Heap) (c : Context) (token : Token) :
    Turn → Prop
  | take heap' c' | keep heap' c' => Move reg source heap c token heap' c'
  | enter path start target => c.mode = .includingPath start path target
  | leave root => c.mode = .finished root

section

variable {reg : Registry} {source : Path} {heap : Heap} {c : Context} {token : Token} {t : Turn}

theorem explained_takeWith {result : Result (Heap × Context)}
    (hmove : ∀ heap' c', result = .ok (heap', c') → Move reg source heap c token heap' c')
    (h : takeWith result = .ok t) : t.Explained reg source heap c token := by
  rcases takeWith_ok h with ⟨heap', c', rfl, hr⟩
  exact hmove heap' c' hr

theorem explained_keepWith {result : Result (Heap × Context)}
    (hmove : ∀ heap' c', result = .ok (heap', c') → Move reg source heap c token heap' c')
    (h : keepWith result = .ok t) : t.Explained reg source heap c token := by
  rcases keepWith_ok h with ⟨heap', c', rfl, hr⟩
  exact hmove heap' c' hr

theorem explained_takeCharacter {character : Char} {mode : Mode}
    (hlead : Leads reg c token c.mode mode)
    (h : takeCharacter heap c character mode token = .ok t) :
    t.Explained reg source heap c token := by
  unfold takeCharacter at h
  split at h
  · cases h; exact .lead hlead
  · simp [unexpected] at h

theorem explained_takeSeparator {close : Char} {mode : Mode}
    (hlead : Leads reg c token c.mode mode)
    (h : takeSeparator heap c close mode token = .ok t) :
    t.Explained reg source heap c token := by
  unfold takeSeparator at h
  split at h
  · cases h; exact .lead hlead
  · split at h
    · cases h; exact .lead hlead
    · simp [unexpected] at h

theorem resolve_eq_ok {name : String} {p : Position} {r : Ref} (h : resolve c name p = .ok r) :
    c.scopes.resolve? name = some r := by
  unfold resolve at h
  split at h
  next hr => cases h; exact hr
  · simp at h

theorem resolveTyped_eq_ok {spec : ObjectSpec} {name : String} {start : Position} {r : Ref}
    (h : resolveTyped reg heap c spec name start = .ok r) :
    c.scopes.resolve? name = some r ∧
      reg.isDerivedFrom (heap.get r).typeName spec.typeName = true := by
  unfold resolveTyped at h
  split at h
  next hr =>
    split at h
    next hderived => cases h; exact ⟨hr, hderived⟩
    · simp at h
  · simp at h

/-- An object of a type that is not abstract is made, and its body is opened. -/
theorem openObject_eq_ok_iff {spec : ObjectSpec} {start : Position} {name : String}
    {target : Target} :
    openObject source heap c spec start name target = .ok t ↔
      spec.isAbstract = false ∧ t = .take (heap.alloc (newObject source spec start name))
        (c.openBody { object := heap.size, spec, start, target }) := by
  unfold openObject
  cases spec.isAbstract with
  | true => exact ⟨nofun, nofun⟩
  | false =>
      refine ⟨fun h => ⟨rfl, (Except.ok.inj h).symm⟩, fun h => ?_⟩
      rw [h.2]
      rfl

theorem explained_openObject {spec : ObjectSpec} {start : Position} {name : String}
    {target : Target} (hopens : Opens c.mode spec start name target)
    (h : openObject source heap c spec start name target = .ok t) :
    t.Explained reg source heap c token := by
  rcases openObject_eq_ok_iff.1 h with ⟨hconcrete, rfl⟩
  exact .openNew hopens hconcrete

theorem explained_takeScalar {field : FieldSpec} {type : ScalarType} {start : Position}
    {more : Nat} {before : List Value}
    (hlast : more = 0 → ∀ v, readScalar type token = .ok v →
      Gathers token c.mode field start (before ++ [v]))
    (hnext : ∀ n, more = n + 1 → ∀ v, readScalar type token = .ok v →
      Leads reg c token c.mode (.scalar field type start n (before ++ [v])))
    (h : takeScalar heap c field type start more before token = .ok t) :
    t.Explained reg source heap c token := by
  rcases bind_eq_ok h with ⟨v, hv, h⟩
  cases more with
  | zero => exact explained_takeWith (fun _ _ hr => .store (hlast rfl v hv) hr) h
  | succ n => cases h; exact .lead (hnext n rfl v hv)

theorem explained_beginObject {target : Target} (hmode : c.mode = .object target)
    (h : beginObject reg heap c target token = .ok t) : t.Explained reg source heap c token := by
  unfold beginObject at h
  split at h
  next hl => cases h; exact .lead (hmode ▸ .include hl)
  next hl =>
    rcases bind_eq_ok h with ⟨r, hr, h⟩
    exact explained_takeWith (fun _ _ hd => .refer (hmode ▸ .quoted hl (resolve_eq_ok hr)) hd) h
  next word hl =>
    split at h
    next hclone => cases h; exact .lead (hmode ▸ .clone (hclone ▸ hl))
    next hclone =>
      split at h
      next huse => cases h; exact .lead (hmode ▸ .use (huse ▸ hl))
      next huse =>
        split at h
        next hspec => cases h; exact .lead (hmode ▸ .type hl hclone huse hspec)
        next hspec hr =>
          exact explained_takeWith (fun _ _ hd => .refer (hmode ▸ .bare hl hspec hr) hd) h
        · simp at h
  · simp at h
  · simp at h

theorem explained_makeCopy {start templateStart : Position} {template name : String}
    {target : Target} (hmode : c.mode = .cloningFrom start template templateStart target)
    (hl : token.lexeme = .quoted name)
    (h : makeCopy reg source heap c start template templateStart name target = .ok t) :
    t.Explained reg source heap c token := by
  unfold makeCopy at h
  split at h
  · simp at h
  next r hr =>
    rcases bind_eq_ok h with ⟨⟨heap', copy⟩, hcopy, h⟩
    cases h
    exact .copy hmode hl hr (report_ok hcopy)

theorem explained_beginBlock {block : Block} {mode : Mode} (hlead : Leads reg c token c.mode mode)
    (h : beginBlock heap c block mode token = .ok t) : t.Explained reg source heap c token := by
  unfold beginBlock at h
  split at h
  · simp at h
  · cases h; exact .lead hlead

theorem explained_closeBody (hmode : c.mode = .item) (hl : token.lexeme = .punct '\x7d')
    (h : closeBody reg heap c = .ok t) : t.Explained reg source heap c token := by
  unfold closeBody at h
  split at h
  next hbodies => cases h; exact .lead (hmode ▸ .closeNothing hl hbodies)
  next hbodies => exact explained_takeWith (fun _ _ hr => .close hmode hl hbodies hr) h

theorem explained_beginField {word : String} (hmode : c.mode = .item)
    (hl : token.lexeme = .name word) (hconstants : word ≠ "CONSTANTS")
    (htemplates : word ≠ "TEMPLATES") (h : beginField heap c word token = .ok t) :
    t.Explained reg source heap c token := by
  unfold beginField at h
  split at h
  · simp at h
  next hbodies =>
    split at h
    · simp at h
    next hfield =>
      cases h
      exact .lead (hmode ▸ .field hl hconstants htemplates hbodies hfield)

theorem explained_beginItem (hmode : c.mode = .item) (h : beginItem reg heap c token = .ok t) :
    t.Explained reg source heap c token := by
  unfold beginItem at h
  split at h
  next hl => exact explained_closeBody hmode hl h
  next hl => exact explained_beginBlock (hmode ▸ .bareConstants hl) h
  next word hl =>
    split at h
    next hconstants => exact explained_beginBlock (hmode ▸ .constants (hconstants ▸ hl)) h
    next hconstants =>
      split at h
      next htemplates => exact explained_beginBlock (hmode ▸ .templates (htemplates ▸ hl)) h
      next htemplates => exact explained_beginField hmode hl hconstants htemplates h
  · simp [unexpected] at h

theorem explained_beginValue {field : FieldSpec} (hmode : c.mode = .fieldValue field)
    (h : beginValue heap c field token = .ok t) : t.Explained reg source heap c token := by
  unfold beginValue at h
  -- Objects and lists of objects are read on their own, and scalars by the number of places.
  split at h
  next htype => cases h; exact .lead (hmode ▸ .valueObject htype)
  next htype =>
    split at h
    · cases h; exact .lead (hmode ▸ .valueObjects htype)
    · simp [unexpected] at h
  next type htype =>
    split at h
    next hlist =>
      split at h
      · cases h; exact .lead (hmode ▸ .valueList htype hlist)
      · simp [unexpected] at h
    next hlist =>
      have hlist : field.kind.isList = false := by simpa using hlist
      split at h
      next harity =>
        exact explained_keepWith (fun _ _ hr => .store (hmode ▸ .none htype hlist harity) hr) h
      next more harity =>
        refine explained_takeScalar ?_ ?_ h
        · rintro rfl v hv
          exact hmode ▸ .only htype hlist harity hv
        · rintro n rfl v hv
          exact hmode ▸ .valueFirst htype hlist harity hv

/-- Every turn is a move, or enters or leaves a document. -/
theorem turn_cases (h : turn reg source heap c token = .ok t) :
    t.Explained reg source heap c token := by
  unfold turn at h
  -- One case for each mode, as in the definition of a turn.
  cases hm : c.mode <;> simp only [hm] at h
  case object => exact explained_beginObject hm h
  case used =>
    split at h
    next hl =>
      rcases bind_eq_ok h with ⟨_, hr, h⟩
      exact explained_takeWith (fun _ _ hd => .refer (hm ▸ .used hl (resolve_eq_ok hr)) hd) h
    · simp [unexpected] at h
  case typed =>
    split at h
    next hl => cases h; exact .lead (hm ▸ .objectName hl)
    · exact explained_openObject (hm ▸ .unnamed) h
    · simp [unexpected] at h
  case named =>
    split at h
    · exact explained_openObject (hm ▸ .named) h
    · rcases bind_eq_ok h with ⟨_, hr, h⟩
      rcases resolveTyped_eq_ok hr with ⟨hr, hderived⟩
      exact explained_takeWith (fun _ _ hd => .refer (hm ▸ .typed hr hderived) hd) h
    · rcases bind_eq_ok h with ⟨_, hr, h⟩
      rcases resolveTyped_eq_ok hr with ⟨hr, hderived⟩
      exact explained_keepWith (fun _ _ hd => .refer (hm ▸ .typed hr hderived) hd) h
  case cloning =>
    split at h
    next hl => cases h; exact .lead (hm ▸ .template hl)
    · simp [unexpected] at h
  case cloningFrom =>
    split at h
    next hl => exact explained_makeCopy hm hl h
    · simp [unexpected] at h
  case cloned =>
    split at h
    next hl =>
      rcases bind_eq_ok h with ⟨spec, hspec, h⟩
      cases h
      exact .openCopy hm hl (Registry.lookup_eq_ok_iff.1 (report_ok hspec))
    next hl => exact explained_keepWith (fun _ _ hr => .endCopy hm hl hr) h
  case including =>
    split at h
    next hl =>
      split at h
      · simp at h
      next hne => cases h; exact .lead (hm ▸ .path hl hne)
    · simp [unexpected] at h
  case includingPath =>
    split at h
    · cases h; exact hm
    · simp [unexpected] at h
  case item => exact explained_beginItem hm h
  case itemEnd => exact explained_takeSeparator (hm ▸ .itemNext) h
  case constantsColon => exact explained_takeCharacter (hm ▸ .constantsColon) h
  case constantsOpen => exact explained_takeCharacter (hm ▸ .constantsOpen) h
  case constant =>
    split at h
    · cases h; exact .lead (hm ▸ .constantsClose)
    next hl => cases h; exact .lead (hm ▸ .constantName hl)
    · simp [unexpected] at h
  case constantColon => exact explained_takeCharacter (hm ▸ .constantColon) h
  case constantValue =>
    split at h
    next hl => cases h; exact .constant hm hl
    · simp [unexpected] at h
  case constantEnd => exact explained_takeSeparator (hm ▸ .constantNext) h
  case templatesColon => exact explained_takeCharacter (hm ▸ .templatesColon) h
  case templatesOpen => exact explained_takeCharacter (hm ▸ .templatesOpen) h
  case template =>
    split at h
    · cases h; exact .lead (hm ▸ .templatesClose)
    · cases h; exact .lead (hm ▸ .templateFirst)
  case templateEnd => exact explained_takeSeparator (hm ▸ .templateNext) h
  case fieldColon => exact explained_takeCharacter (hm ▸ .fieldColon) h
  case fieldValue => exact explained_beginValue hm h
  case scalar =>
    refine explained_takeScalar ?_ ?_ h
    · rintro rfl v hv
      exact hm ▸ .last hv
    · rintro n rfl v hv
      exact hm ▸ .valueNext hv
  case listItem =>
    split at h
    · exact explained_takeWith (fun _ _ hr => .store (hm ▸ .list) hr) h
    · rcases bind_eq_ok h with ⟨_, hv, h⟩
      cases h
      exact .lead (hm ▸ .listItem hv)
  case listEnd => exact explained_takeSeparator (hm ▸ .listNext) h
  case element =>
    split at h
    · exact explained_takeWith (fun _ _ hr => .store (hm ▸ .objects) hr) h
    · cases h; exact .lead (hm ▸ .elementFirst)
  case elementEnd => exact explained_takeSeparator (hm ▸ .elementNext) h
  case finished =>
    split at h
    · cases h; exact hm
    · simp [unexpected] at h

/-- The document is left at its end. -/
theorem eof_of_leave {r : Ref} (h : turn reg source heap c token = .ok (.leave r)) :
    token.lexeme = .eof := by
  have hmode : c.mode = .finished r := turn_cases h
  unfold turn at h
  simp only [hmode] at h
  split at h
  next hl => exact hl
  · cases h

end

end GraphText.Reader

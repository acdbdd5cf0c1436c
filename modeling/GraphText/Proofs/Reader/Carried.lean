import GraphText.Proofs.Heap.Carried
import GraphText.Proofs.Reader.Move

/-!
# Turns elsewhere

A turn never looks at the number of an object, nor at a position. Numbers are
for finding objects again, and positions are for messages: a turn passes them
on, to the objects that it makes, to the bodies that it opens and to its faults.
So a reader whose objects have been carried elsewhere, and that has been given
other positions, does with every token what it would have done: the same turn,
or a fault of the same cause, carried to the same place.

The positions are changed by any function at all, also by one that forgets them.
The statements are equations and say nothing about success, so they can be
chained without looking at what a turn does. There is one for each helper of
`turn`, in the order in which it uses them.

## Main definitions

* `Scopes.mapRefs`, `Reader.Mode.mapRefs`, `Reader.Context.mapRefs`: contexts
  under other numbers.
* `Reader.Mode.moved`, `Reader.Context.moved`: contexts at other positions.
* `Reader.Context.carried`, `Reader.Turn.carried`, `Carrier.result`: contexts,
  turns and results elsewhere.

## Theorems

* `Scopes.resolve?_mapRefs`, `Scopes.template?_mapRefs`: names stand for the
  same objects.
* `Reader.turn_carried`: a turn elsewhere.
-/

namespace GraphText

/-- The scope with every object under another number. -/
def Scope.mapRefs (f : Ref → Ref) (s : Scope) : Scope :=
  { s with objects := s.objects.map f, templates := s.templates.map f }

namespace Scopes

variable {f : Ref → Ref}

/-- The scopes with every object under another number. -/
def mapRefs (f : Ref → Ref) (s : Scopes) : Scopes :=
  { bodies := s.bodies.map (Scope.mapRefs f)
    outermost := s.outermost.mapRefs f
    document := s.document.map f }

theorem all_mapRefs (s : Scopes) : (s.mapRefs f).all = s.all.map (Scope.mapRefs f) := by
  simp [all, mapRefs]

theorem findSome?_map {α β γ : Type} {p : α → α} {q : β → γ} {g : α → Option β}
    {g' : α → Option γ} (hg : ∀ a, g' (p a) = (g a).map q) (l : List α) :
    (l.map p).findSome? g' = (l.findSome? g).map q := by
  induction l with
  | nil => rfl
  | cons a l ih =>
      rw [List.map_cons, List.findSome?_cons, List.findSome?_cons, hg]
      cases g a with
      | none => exact ih
      | some b => rfl

theorem constant?_mapRefs (s : Scopes) (name : String) :
    (s.mapRefs f).constant? name = s.constant? name := by
  unfold constant?
  rw [all_mapRefs, List.findSome?_map]
  rfl

theorem resolve?_mapRefs (s : Scopes) (name : String) :
    (s.mapRefs f).resolve? name = (s.resolve? name).map f := by
  unfold resolve?
  have hscope : ∀ scope : Scope,
      ((scope.mapRefs f).objects.find? name).or ((scope.mapRefs f).templates.find? name) =
        ((scope.objects.find? name).or (scope.templates.find? name)).map f := by
    intro scope
    simp only [Scope.mapRefs, Table.find?_map]
    cases scope.objects.find? name <;> rfl
  rw [all_mapRefs, findSome?_map hscope, mapRefs, Table.find?_map]
  cases s.all.findSome? _ <;> rfl

theorem template?_mapRefs (s : Scopes) (name : String) :
    (s.mapRefs f).template? name = (s.template? name).map f := by
  unfold template?
  have hscope : ∀ scope : Scope,
      (scope.mapRefs f).templates.find? name = (scope.templates.find? name).map f :=
    fun scope => Table.find?_map f scope.templates name
  rw [all_mapRefs, findSome?_map hscope, resolve?_mapRefs]
  cases s.all.findSome? _ <;> rfl

theorem mapRefs_close (s : Scopes) : (s.mapRefs f).close = s.close.mapRefs f := by
  simp [close, mapRefs]

theorem mapRefs_modify {g g' : Scope → Scope}
    (hg : ∀ scope, g' (Scope.mapRefs f scope) = (g scope).mapRefs f) (s : Scopes) :
    (s.mapRefs f).modify g' = (s.modify g).mapRefs f := by
  rcases s with ⟨bodies, outermost, document⟩
  cases bodies with
  | nil => simp [modify, mapRefs, hg]
  | cons scope rest => simp [modify, mapRefs, hg]

theorem mapRefs_defineConstant (s : Scopes) (name value : String) :
    (s.mapRefs f).defineConstant name value = (s.defineConstant name value).mapRefs f := by
  refine mapRefs_modify (f := f) (fun scope => ?_) s
  rfl

theorem mapRefs_define (s : Scopes) (name : String) (r : Ref) :
    (s.mapRefs f).define name (f r) = (s.define name r).mapRefs f := by
  have hmodify : (s.mapRefs f).modify
        (fun scope => { scope with objects := scope.objects.insert name (f r) }) =
      (s.modify fun scope => { scope with objects := scope.objects.insert name r }).mapRefs f :=
    mapRefs_modify (fun scope => by simp [Scope.mapRefs, Table.insert_map]) s
  simp only [define, hmodify]
  simp [mapRefs, Table.insert_map]

theorem mapRefs_defineTemplate (s : Scopes) (name : String) (r : Ref) :
    (s.mapRefs f).defineTemplate name (f r) = (s.defineTemplate name r).mapRefs f :=
  mapRefs_modify (fun scope => by simp [Scope.mapRefs, Table.insert_map]) s

end Scopes

namespace Reader

/-- The target with every object under another number. -/
def Target.mapRefs (f : Ref → Ref) : Target → Target
  | root => root
  | template => template
  | field spec start => field spec start
  | element spec start first before => element spec start first (before.map f)

/-- The mode with every object under another number. -/
def Mode.mapRefs (f : Ref → Ref) : Mode → Mode
  | object target => object (target.mapRefs f)
  | used target => used (target.mapRefs f)
  | typed spec start target => typed spec start (target.mapRefs f)
  | named spec start name target => named spec start name (target.mapRefs f)
  | cloning start target => cloning start (target.mapRefs f)
  | cloningFrom start source sourceStart target =>
    cloningFrom start source sourceStart (target.mapRefs f)
  | cloned copy start target => cloned (f copy) start (target.mapRefs f)
  | including start target => including start (target.mapRefs f)
  | includingPath start path target => includingPath start path (target.mapRefs f)
  | scalar field type start more before =>
    scalar field type start more (before.map (Value.mapRefs f))
  | listItem field type start before => listItem field type start (before.map (Value.mapRefs f))
  | listEnd field type start before => listEnd field type start (before.map (Value.mapRefs f))
  | element field start before => element field start (before.map f)
  | elementEnd field start before => elementEnd field start (before.map f)
  | finished root => finished (f root)
  | mode => mode

/-- The body with every object under another number. -/
def Body.mapRefs (f : Ref → Ref) (b : Body) : Body :=
  { b with object := f b.object, target := b.target.mapRefs f }

/-- The context with every object under another number. -/
def Context.mapRefs (f : Ref → Ref) (c : Context) : Context :=
  { scopes := c.scopes.mapRefs f
    bodies := c.bodies.map (Body.mapRefs f)
    mode := c.mode.mapRefs f }

/-- The target of an object, with other positions. -/
def Target.moved (g : Position → Position) : Target → Target
  | root => root
  | template => template
  | field spec start => field spec (g start)
  | element spec start first before => element spec (g start) (g first) before

/-- The mode, with other positions. -/
def Mode.moved (g : Position → Position) : Mode → Mode
  | object target => object (target.moved g)
  | used target => used (target.moved g)
  | typed spec start target => typed spec (g start) (target.moved g)
  | named spec start name target => named spec (g start) name (target.moved g)
  | cloning start target => cloning (g start) (target.moved g)
  | cloningFrom start source sourceStart target =>
    cloningFrom (g start) source (g sourceStart) (target.moved g)
  | cloned copy start target => cloned copy (g start) (target.moved g)
  | including start target => including (g start) (target.moved g)
  | includingPath start path target => includingPath (g start) path (target.moved g)
  | scalar field type start more before => scalar field type (g start) more before
  | listItem field type start before => listItem field type (g start) before
  | listEnd field type start before => listEnd field type (g start) before
  | element field start before => element field (g start) before
  | elementEnd field start before => elementEnd field (g start) before
  | mode => mode

/-- The body, with other positions. -/
def Body.moved (g : Position → Position) (b : Body) : Body :=
  { b with start := g b.start, target := b.target.moved g }

/-- The context, with other positions. -/
def Context.moved (g : Position → Position) (c : Context) : Context :=
  { c with bodies := c.bodies.map (Body.moved g), mode := c.mode.moved g }

/-- The target elsewhere. -/
def Target.carried (k : Carrier) (target : Target) : Target :=
  (target.moved k.place).mapRefs k.ref

/-- The mode elsewhere. -/
def Mode.carried (k : Carrier) (mode : Mode) : Mode :=
  (mode.moved k.place).mapRefs k.ref

/-- The context elsewhere. -/
def Context.carried (k : Carrier) (c : Context) : Context :=
  (c.moved k.place).mapRefs k.ref

/-- The turn elsewhere. -/
def Turn.carried (k : Carrier) : Turn → Turn
  | take heap context => take (k.heap heap) (context.carried k)
  | keep heap context => keep (k.heap heap) (context.carried k)
  | enter path start target => enter path (k.place start) (target.carried k)
  | leave root => leave (k.ref root)

end Reader

namespace Carrier

/-- Objects and a context elsewhere. -/
def pair (k : Carrier) (p : Heap × Reader.Context) : Heap × Reader.Context :=
  (k.heap p.1, p.2.carried k)

/-- The token at another position. -/
def token (k : Carrier) (token : Token) : Token :=
  { token with position := k.place token.position }

/-- The result with `f` of what it yields, or the fault elsewhere. -/
def result {α β : Type} (k : Carrier) (f : α → β) : Reader.Result α → Reader.Result β
  | .ok a => .ok (f a)
  | .error (cause, p) => .error (cause, k.place p)

end Carrier

namespace Reader

section

variable {k : Carrier} {reg : Registry} {source : Path} {h : Heap} {c : Context} {token : Token}

theorem enter_carried (c : Context) (mode : Mode) :
    (c.carried k).enter (mode.carried k) = (c.enter mode).carried k := rfl

/-- What a word is read as refers to nothing, and is the same under other numbers. -/
theorem map_append_of_readScalar {f : Ref → Ref} {type : ScalarType} {v : Value}
    (h : readScalar type token = .ok v) (before : List Value) :
    before.map (Value.mapRefs f) ++ [v] = (before ++ [v]).map (Value.mapRefs f) := by
  rw [List.map_append, List.map_cons, List.map_nil,
    Value.mapRefs_of_refs (refs_of_readScalar h)]

theorem takeWith_carried {x y : Result (Heap × Context)} (h : x = k.result k.pair y) :
    takeWith x = k.result (Turn.carried k) (takeWith y) := by
  subst h
  cases y <;> rfl

theorem keepWith_carried {x y : Result (Heap × Context)} (h : x = k.result k.pair y) :
    keepWith x = k.result (Turn.carried k) (keepWith y) := by
  subst h
  cases y <;> rfl

theorem storeField_carried (field : FieldSpec) (start : Position) (vs : List Value) :
    storeField (k.heap h) (c.carried k) field (k.place start) (vs.map (Value.mapRefs k.ref)) =
      k.result k.pair (storeField h c field start vs) := by
  rcases c with ⟨scopes, bodies, mode⟩
  cases bodies with
  | nil => rfl
  | cons body rest =>
      simp only [storeField, Context.carried, Context.moved, Context.mapRefs, List.map_cons,
        Body.moved, Body.mapRefs]
      rw [k.store]
      cases h.store body.object field vs <;> rfl

theorem checkObject_carried (field : FieldSpec) (r : Ref) (p : Position) :
    checkObject reg (k.heap h) field (k.ref r) (k.place p) =
      k.result id (checkObject reg h field r p) := by
  unfold checkObject
  cases field.kind.required with
  | none => rfl
  | some required =>
      simp only [k.typeName]
      split <;> rfl

theorem deliver_carried (target : Target) (r : Ref) :
    deliver reg (k.heap h) (c.carried k) (target.carried k) (k.ref r) =
      k.result k.pair (deliver reg h c target r) := by
  cases target with
  | root => rfl
  | template => rfl
  | field field start =>
      simp only [deliver, Target.carried, Target.moved, Target.mapRefs]
      rw [checkObject_carried]
      cases checkObject reg h field r start with
      | error e => rfl
      | ok _ => exact storeField_carried field start [.object r]
  | element field start first before =>
      have hbefore : before.map k.ref ++ [k.ref r] = (before ++ [r]).map k.ref := by
        rw [List.map_append, List.map_cons, List.map_nil]
      simp only [deliver, Target.carried, Target.moved, Target.mapRefs, hbefore]
      rw [checkObject_carried]
      cases checkObject reg h field r first <;> rfl

theorem declare_carried (target : Target) (r : Ref) (start : Position) :
    declare (k.heap h) (c.carried k) (target.carried k) (k.ref r) (k.place start) =
      k.result (Context.carried k) (declare h c target r start) := by
  unfold declare
  rw [k.name]
  cases (h.get r).name with
  | none => cases target <;> rfl
  | some name =>
      -- A template is declared as one, and any other object as an object.
      have hobject : (c.carried k).scopes.define name (k.ref r) =
          (c.scopes.define name r).mapRefs k.ref := Scopes.mapRefs_define c.scopes name r
      have htemplate : (c.carried k).scopes.defineTemplate name (k.ref r) =
          (c.scopes.defineTemplate name r).mapRefs k.ref :=
        Scopes.mapRefs_defineTemplate c.scopes name r
      cases target with
      | template => exact congrArg (fun s => Except.ok { c.carried k with scopes := s }) htemplate
      | root | field | element =>
          exact congrArg (fun s => Except.ok { c.carried k with scopes := s }) hobject

theorem complete_carried (target : Target) (r : Ref) (start : Position) :
    complete reg (k.heap h) (c.carried k) (target.carried k) (k.ref r) (k.place start) =
      k.result k.pair (complete reg h c target r start) := by
  unfold complete
  rw [declare_carried]
  cases declare h c target r start with
  | error e => rfl
  | ok named => exact deliver_carried target r

theorem resolve?_carried (name : String) :
    (c.carried k).scopes.resolve? name = (c.scopes.resolve? name).map k.ref :=
  Scopes.resolve?_mapRefs c.scopes name

theorem resolve_carried (name : String) (p : Position) :
    resolve (c.carried k) name (k.place p) = k.result k.ref (resolve c name p) := by
  unfold resolve
  rw [resolve?_carried]
  cases c.scopes.resolve? name <;> rfl

theorem resolveTyped_carried (spec : ObjectSpec) (name : String) (start : Position) :
    resolveTyped reg (k.heap h) (c.carried k) spec name (k.place start) =
      k.result k.ref (resolveTyped reg h c spec name start) := by
  unfold resolveTyped
  rw [resolve?_carried]
  cases c.scopes.resolve? name with
  | none => rfl
  | some r =>
      simp only [Option.map_some, k.typeName]
      by_cases hderived : reg.isDerivedFrom (h.get r).typeName spec.typeName = true
      · rw [if_pos hderived, if_pos hderived]
        rfl
      · rw [if_neg hderived, if_neg hderived]
        rfl

/-- Finding an object and bringing it to its target. -/
theorem refer_carried (found : Result Ref) (target : Target)
    {finish : Result (Heap × Context) → Result Turn}
    (hfinish : ∀ {x y}, x = k.result k.pair y →
      finish x = k.result (Turn.carried k) (finish y)) :
    (k.result k.ref found >>= fun r =>
        finish (deliver reg (k.heap h) (c.carried k) (target.carried k) r)) =
      k.result (Turn.carried k) (found >>= fun r => finish (deliver reg h c target r)) := by
  cases found with
  | error e => rfl
  | ok r => exact hfinish (deliver_carried target r)

theorem openObject_carried (spec : ObjectSpec) (start : Position) (name : String)
    (target : Target) :
    openObject source (k.heap h) (c.carried k) spec (k.place start) name (target.carried k) =
      k.result (Turn.carried k) (openObject source h c spec start name target) := by
  unfold openObject
  split
  · rfl
  · have halloc : (k.heap h).alloc (newObject source spec (k.place start) name) =
        k.heap (h.alloc (newObject source spec start name)) :=
      k.alloc (newObject source spec start name)
    rw [k.size]
    exact congrArg (fun heap => Except.ok (Turn.take heap _)) halloc

theorem closeBody_carried :
    closeBody reg (k.heap h) (c.carried k) = k.result (Turn.carried k) (closeBody reg h c) := by
  rcases c with ⟨scopes, bodies, mode⟩
  cases bodies with
  | nil => rfl
  | cons body rest =>
      let outer : Context := { scopes := scopes.close, bodies := rest, mode }
      have hcomplete : complete reg (k.heap h) (outer.carried k) (body.target.carried k)
          (k.ref body.object) (k.place body.start) =
            k.result k.pair (complete reg h outer body.target body.object body.start) :=
        complete_carried body.target body.object body.start
      simp only [closeBody, Context.carried, Context.moved, Context.mapRefs, List.map_cons,
        Body.moved, Body.mapRefs]
      rw [Scopes.mapRefs_close]
      exact takeWith_carried hcomplete

theorem report_carried {α : Type} (p : Position) (result : Except Cause α) :
    report (k.place p) result = k.result id (report p result) := by
  cases result <;> rfl

theorem readScalar_carried (type : ScalarType) :
    readScalar type (k.token token) = k.result id (readScalar type token) := by
  rcases token with ⟨lexeme, p⟩
  cases type with
  | string => cases lexeme <;> rfl
  | bool | int | uint | float =>
      simp only [readScalar, Carrier.token]
      cases lexeme.literal? with
      | none => rfl
      | some text => exact report_carried p _

theorem takeScalar_carried (field : FieldSpec) (type : ScalarType) (start : Position)
    (more : Nat) (before : List Value) :
    takeScalar (k.heap h) (c.carried k) field type (k.place start) more
        (before.map (Value.mapRefs k.ref)) (k.token token) =
      k.result (Turn.carried k) (takeScalar h c field type start more before token) := by
  unfold takeScalar
  rw [readScalar_carried]
  cases hv : readScalar type token with
  | error e => rfl
  | ok v =>
      simp only [Carrier.result, id, bind, Except.bind, map_append_of_readScalar hv]
      cases more with
      | zero => exact takeWith_carried (storeField_carried field start _)
      | succ n => rfl

theorem beginObject_carried (target : Target) :
    beginObject reg (k.heap h) (c.carried k) (target.carried k) (k.token token) =
      k.result (Turn.carried k) (beginObject reg h c target token) := by
  rcases token with ⟨lexeme, p⟩
  -- What the token is decides, and that does not depend on where things are.
  cases lexeme with
  | name word =>
      simp only [beginObject, Carrier.token]
      split
      · rfl
      · split
        · rfl
        · rw [resolve?_carried]
          cases reg.find? word with
          | some spec => rfl
          | none =>
              cases c.scopes.resolve? word with
              | none => rfl
              | some r => exact takeWith_carried (deliver_carried target r)
  | quoted name =>
      simp only [beginObject, Carrier.token]
      rw [resolve_carried]
      exact refer_carried _ target takeWith_carried
  | punct character =>
      simp only [beginObject, Carrier.token]
      split <;> first | rfl | contradiction
  | number text | unknown character | eof => rfl

theorem makeCopy_carried (start : Position) (template : String) (templateStart : Position)
    (name : String) (target : Target) :
    makeCopy reg source (k.heap h) (c.carried k) (k.place start) template (k.place templateStart)
        name (target.carried k) =
      k.result (Turn.carried k)
        (makeCopy reg source h c start template templateStart name target) := by
  have htemplate : (c.carried k).scopes.template? template =
      (c.scopes.template? template).map k.ref := Scopes.template?_mapRefs c.scopes template
  unfold makeCopy
  rw [htemplate]
  cases c.scopes.template? template with
  | none => rfl
  | some r =>
      simp only [Option.map_some]
      rw [k.copy]
      cases h.copy reg r true with
      | error e => rfl
      | ok new =>
          -- The copy gets its name and its place where it has been carried to.
          have hmodify : (k.heap new.1).modify (k.ref new.2)
              (renamedCopy source (k.place start) name) =
                k.heap (new.1.modify new.2 (renamedCopy source start name)) :=
            k.modify (f := renamedCopy source start name) (fun _ => rfl) new.1 new.2
          exact congrArg (fun heap => Except.ok (Turn.take heap _)) hmodify

theorem beginBlock_carried (block : Block) (mode : Mode) (hmode : mode.carried k = mode) :
    beginBlock (k.heap h) (c.carried k) block mode (k.token token) =
      k.result (Turn.carried k) (beginBlock h c block mode token) := by
  have henter : (c.carried k).enter mode = (c.enter mode).carried k := by
    rw [← enter_carried, hmode]
  unfold beginBlock
  rw [henter]
  rcases c with ⟨scopes, bodies, mode'⟩
  cases bodies with
  | nil => rfl
  | cons body rest =>
      rcases body with ⟨object, spec, start, target, seenField⟩
      cases seenField <;> rfl

theorem beginField_carried (name : String) :
    beginField (k.heap h) (c.carried k) name (k.token token) =
      k.result (Turn.carried k) (beginField h c name token) := by
  rcases c with ⟨scopes, bodies, mode⟩
  cases bodies with
  | nil => rfl
  | cons body rest =>
      simp only [beginField, Context.carried, Context.moved, Context.mapRefs, List.map_cons,
        Body.moved, Body.mapRefs]
      cases body.spec.find? name <;> rfl

theorem beginItem_carried :
    beginItem reg (k.heap h) (c.carried k) (k.token token) =
      k.result (Turn.carried k) (beginItem reg h c token) := by
  have hlexeme : (k.token token).lexeme = token.lexeme := rfl
  unfold beginItem
  rw [hlexeme]
  split
  · exact closeBody_carried
  · exact beginBlock_carried _ _ rfl
  next word _ =>
    split
    · exact beginBlock_carried _ _ rfl
    · split
      · exact beginBlock_carried _ _ rfl
      · exact beginField_carried word
  · rfl

theorem beginValue_carried (field : FieldSpec) :
    beginValue (k.heap h) (c.carried k) field (k.token token) =
      k.result (Turn.carried k) (beginValue h c field token) := by
  have hlexeme : (k.token token).lexeme = token.lexeme := rfl
  unfold beginValue
  cases field.kind.valueType with
  | object => rfl
  | objectList =>
      simp only [hlexeme]
      split <;> rfl
  | scalar type =>
      simp only [hlexeme]
      split
      · split <;> rfl
      · cases field.kind.arity with
        | zero => exact keepWith_carried (storeField_carried field _ [])
        | succ n => exact takeScalar_carried field type token.position n []

theorem takeCharacter_carried (character : Char) (mode : Mode) :
    takeCharacter (k.heap h) (c.carried k) character (mode.carried k) (k.token token) =
      k.result (Turn.carried k) (takeCharacter h c character mode token) := by
  have hlexeme : (k.token token).lexeme = token.lexeme := rfl
  unfold takeCharacter
  rw [hlexeme]
  split <;> rfl

theorem takeSeparator_carried (close : Char) (mode : Mode) :
    takeSeparator (k.heap h) (c.carried k) close (mode.carried k) (k.token token) =
      k.result (Turn.carried k) (takeSeparator h c close mode token) := by
  have hlexeme : (k.token token).lexeme = token.lexeme := rfl
  unfold takeSeparator
  rw [hlexeme]
  split
  · rfl
  · split <;> rfl

/-- A turn elsewhere is the turn, carried there. -/
theorem turn_carried :
    turn reg source (k.heap h) (c.carried k) (k.token token) =
      k.result (Turn.carried k) (turn reg source h c token) := by
  have hmode : (c.carried k).mode = c.mode.carried k := rfl
  have hlexeme : (k.token token).lexeme = token.lexeme := rfl
  unfold turn
  rw [hmode]
  cases c.mode with
  | object target => exact beginObject_carried target
  | used target =>
      rcases token with ⟨lexeme, p⟩
      cases lexeme with
      | quoted name =>
          simp only [Mode.carried, Mode.moved, Mode.mapRefs, Carrier.token]
          rw [resolve_carried]
          exact refer_carried _ target takeWith_carried
      | name text | number text | punct character | unknown character | eof => rfl
  | typed spec start target =>
      simp only [Mode.carried, Mode.moved, Mode.mapRefs, hlexeme]
      split
      · rfl
      · exact openObject_carried spec start "" target
      · rfl
  | named spec start name target =>
      -- Both arms without a body find the same object, and take or keep the token.
      simp only [Mode.carried, Mode.moved, Mode.mapRefs, hlexeme, resolveTyped_carried]
      split
      · exact openObject_carried spec start name target
      · exact refer_carried _ target takeWith_carried
      · exact refer_carried _ target keepWith_carried
  | cloning start target =>
      simp only [Mode.carried, Mode.moved, Mode.mapRefs, hlexeme]
      split <;> rfl
  | cloningFrom start template templateStart target =>
      simp only [Mode.carried, Mode.moved, Mode.mapRefs, hlexeme]
      split
      · exact makeCopy_carried start template templateStart _ target
      · rfl
  | cloned copy start target =>
      simp only [Mode.carried, Mode.moved, Mode.mapRefs, hlexeme]
      split
      · rw [k.typeName]
        cases reg.lookup (h.get copy).typeName <;> rfl
      · exact keepWith_carried (complete_carried target copy start)
  | including start target =>
      simp only [Mode.carried, Mode.moved, Mode.mapRefs, hlexeme]
      split
      · split <;> rfl
      · rfl
  | includingPath start path target =>
      simp only [Mode.carried, Mode.moved, Mode.mapRefs, hlexeme]
      split <;> rfl
  | item => exact beginItem_carried
  | itemEnd => exact takeSeparator_carried _ .item
  | constantsColon => exact takeCharacter_carried _ .constantsOpen
  | constantsOpen => exact takeCharacter_carried _ .constant
  | constant =>
      simp only [Mode.carried, Mode.moved, Mode.mapRefs, hlexeme]
      split <;> rfl
  | constantColon name => exact takeCharacter_carried _ (.constantValue name)
  | constantValue name =>
      have hdefine : ∀ value, (c.carried k).scopes.defineConstant name value =
          (c.scopes.defineConstant name value).mapRefs k.ref :=
        fun value => Scopes.mapRefs_defineConstant c.scopes name value
      simp only [Mode.carried, Mode.moved, Mode.mapRefs, hlexeme, hdefine]
      split <;> rfl
  | constantEnd => exact takeSeparator_carried _ .constant
  | templatesColon => exact takeCharacter_carried _ .templatesOpen
  | templatesOpen => exact takeCharacter_carried _ .template
  | template =>
      simp only [Mode.carried, Mode.moved, Mode.mapRefs, hlexeme]
      split <;> rfl
  | templateEnd => exact takeSeparator_carried _ .template
  | fieldColon field => exact takeCharacter_carried _ (.fieldValue field)
  | fieldValue field => exact beginValue_carried field
  | scalar field type start more before =>
      exact takeScalar_carried field type start more before
  | listItem field type start before =>
      simp only [Mode.carried, Mode.moved, Mode.mapRefs, hlexeme]
      split
      · exact takeWith_carried (storeField_carried field start before)
      · rw [readScalar_carried]
        cases hv : readScalar type token with
        | error e => rfl
        | ok v =>
            simp only [Carrier.result, id, bind, Except.bind, map_append_of_readScalar hv]
            rfl
  | listEnd field type start before =>
      exact takeSeparator_carried _ (.listItem field type start before)
  | element field start before =>
      simp only [Mode.carried, Mode.moved, Mode.mapRefs, hlexeme]
      split
      · exact takeWith_carried (storeField_carried field start [.objects before])
      · rfl
  | elementEnd field start before =>
      exact takeSeparator_carried _ (.element field start before)
  | finished root =>
      simp only [Mode.carried, Mode.moved, Mode.mapRefs, hlexeme]
      split <;> rfl

end

end Reader

end GraphText

import GraphText.Proofs.Reader.Steps

/-!
# Where faults are reported

A fault is reported at the token that the reader looks at, or at an earlier one
that it has kept the position of: the first token of an object, of a value, of
an element, or the `<` of an include. What is kept is in the mode, in the
targets, and in the open bodies. So whatever a turn does, it reports and keeps
no position but those that it has been given.

This is one fact about results, said of the failing and of the successful ones
together, because what a part of a turn keeps is what the next part may report.

## Main definitions

* `Context.positions`: the positions that are kept in a document.
* `StaysAmong`: the positions that a result reports or keeps.
* `Failed`: how a step fails.

## Theorems

* `turn_staysAmong`: a turn reports and keeps what it has been given.
* `failed_of_step`: every step that fails does so in one of these ways.
-/

namespace GraphText.Reader

/-- The positions that are kept with a target. -/
def Target.positions : Target → List Position
  | root | template => []
  | field _ start => [start]
  | element _ start first _ => [start, first]

/-- The positions that are kept with a mode. -/
def Mode.positions : Mode → List Position
  | object target | used target => target.positions
  | typed _ start target | named _ start _ target | cloning start target | cloned _ start target
  | including start target | includingPath start _ target => start :: target.positions
  | cloningFrom start _ sourceStart target => start :: sourceStart :: target.positions
  | scalar _ _ start _ _ | listItem _ _ start _ | listEnd _ _ start _ | element _ start _
  | elementEnd _ start _ => [start]
  | _ => []

/-- The positions that are kept with an open body. -/
def Body.positions (body : Body) : List Position :=
  body.start :: body.target.positions

/-- The positions that are kept in a document. -/
def Context.positions (c : Context) : List Position :=
  c.mode.positions ++ c.bodies.flatMap Body.positions

/-- The positions that are kept behind a turn. -/
def Turn.positions : Turn → List Position
  | take _ c | keep _ c => c.positions
  | enter _ start target => start :: target.positions
  | leave _ => []

/-- The position of the `<` of the include that is being read. -/
def Mode.angle? : Mode → Option Position
  | including start _ | includingPath start _ _ => some start
  | _ => none

/-- The result reports or keeps no position but these. -/
def StaysAmong {α : Type} (ps : List Position) (kept : α → List Position) : Result α → Prop
  | .ok a => kept a ⊆ ps
  | .error (_, p) => p ∈ ps

section

variable {α β : Type} {ps : List Position} {kept : α → List Position}

theorem StaysAmong.bind {x : Result α} {f : α → Result β} {keptBehind : β → List Position}
    (h : StaysAmong ps kept x) (hf : ∀ a, kept a ⊆ ps → StaysAmong ps keptBehind (f a)) :
    StaysAmong ps keptBehind (x >>= f) := by
  cases x with
  | error fault => exact h
  | ok a => exact hf a h

theorem StaysAmong.map {x : Result α} {f : α → β} {keptBehind : β → List Position}
    (h : StaysAmong ps kept x) (hf : ∀ a, kept a ⊆ ps → keptBehind (f a) ⊆ ps) :
    StaysAmong ps keptBehind (x.map f) := by
  cases x with
  | error fault => exact h
  | ok a => exact hf a h

/-- A result that keeps nothing reports at most one position. -/
theorem staysAmong_report {p : Position} (hp : p ∈ ps) (x : Except Cause α) :
    StaysAmong ps (fun _ => []) (report p x) := by
  cases x with
  | error cause => exact hp
  | ok a => exact List.nil_subset _

theorem staysAmong_unexpected {token : Token} (hp : token.position ∈ ps) (what : Expectation) :
    StaysAmong ps kept (unexpected what token) :=
  hp

variable {reg : Registry} {source : Path} {heap : Heap} {c : Context} {token : Token}
  {field : FieldSpec} {target : Target} {start : Position} {r : Ref}

theorem bodies_subset_positions : c.bodies.flatMap Body.positions ⊆ c.positions :=
  List.subset_append_right _ _

theorem positions_enter {mode : Mode} (hmode : mode.positions ⊆ ps)
    (hc : c.bodies.flatMap Body.positions ⊆ ps) : (c.enter mode).positions ⊆ ps :=
  List.append_subset.2 ⟨hmode, hc⟩

theorem positions_openBody {body : Body} (hstart : body.start ∈ ps)
    (htarget : body.target.positions ⊆ ps) (hc : c.bodies.flatMap Body.positions ⊆ ps) :
    (c.openBody body).positions ⊆ ps := by
  refine List.append_subset.2 ⟨List.nil_subset _, ?_⟩
  rw [Context.openBody, List.flatMap_cons, List.append_subset]
  exact ⟨List.cons_subset.2 ⟨hstart, htarget⟩, hc⟩

theorem positions_afterField (hc : c.bodies.flatMap Body.positions ⊆ ps) :
    c.afterField.positions ⊆ ps := by
  refine List.append_subset.2 ⟨List.nil_subset _, ?_⟩
  unfold Context.afterField
  cases hb : c.bodies with
  | nil => exact List.nil_subset _
  | cons body rest =>
      rw [hb] at hc
      exact hc

theorem storeField_staysAmong (hstart : start ∈ ps) (hc : c.bodies.flatMap Body.positions ⊆ ps)
    (vs : List Value) :
    StaysAmong ps (fun r => r.2.positions) (storeField heap c field start vs) := by
  unfold storeField
  split
  · exact positions_afterField hc
  · refine (staysAmong_report hstart _).bind fun heap' _ => ?_
    exact positions_afterField hc

theorem checkObject_staysAmong {p : Position} (hp : p ∈ ps) :
    StaysAmong ps (fun _ => []) (checkObject reg heap field r p) := by
  unfold checkObject
  split
  · exact List.nil_subset _
  · dsimp only
    split
    · exact List.nil_subset _
    · exact hp

theorem deliver_staysAmong (htarget : target.positions ⊆ ps)
    (hc : c.bodies.flatMap Body.positions ⊆ ps) :
    StaysAmong ps (fun r => r.2.positions) (deliver reg heap c target r) := by
  cases target with
  | root => exact positions_enter (List.nil_subset _) hc
  | template => exact positions_enter (List.nil_subset _) hc
  | field field start =>
      have hstart : start ∈ ps := htarget List.mem_cons_self
      exact (checkObject_staysAmong hstart).bind fun _ _ => storeField_staysAmong hstart hc _
  | element field start first before =>
      rcases List.cons_subset.1 htarget with ⟨hstart, hfirst⟩
      refine (checkObject_staysAmong (hfirst List.mem_cons_self)).bind fun _ _ => ?_
      exact positions_enter (List.cons_subset.2 ⟨hstart, List.nil_subset _⟩) hc

theorem declare_staysAmong (hstart : start ∈ ps) (hc : c.bodies.flatMap Body.positions ⊆ ps) :
    StaysAmong ps (fun d => d.bodies.flatMap Body.positions) (declare heap c target r start) := by
  unfold declare
  split
  · exact hc
  · exact hc
  · exact hstart
  · exact hc

theorem complete_staysAmong (hstart : start ∈ ps) (htarget : target.positions ⊆ ps)
    (hc : c.bodies.flatMap Body.positions ⊆ ps) :
    StaysAmong ps (fun r => r.2.positions) (complete reg heap c target r start) :=
  (declare_staysAmong hstart hc).bind fun _ hd => deliver_staysAmong htarget hd

theorem resolve_staysAmong {p : Position} (hp : p ∈ ps) (name : String) :
    StaysAmong ps (fun _ => []) (resolve c name p) := by
  unfold resolve
  split
  · exact List.nil_subset _
  · exact hp

theorem resolveTyped_staysAmong (hstart : start ∈ ps) (spec : ObjectSpec) (name : String) :
    StaysAmong ps (fun _ => []) (resolveTyped reg heap c spec name start) := by
  unfold resolveTyped
  repeat' split
  · exact List.nil_subset _
  · exact hstart
  · exact hstart

theorem takeWith_staysAmong {result : Result (Heap × Context)}
    (h : StaysAmong ps (fun r => r.2.positions) result) :
    StaysAmong ps Turn.positions (takeWith result) :=
  h.map fun _ hd => hd

theorem keepWith_staysAmong {result : Result (Heap × Context)}
    (h : StaysAmong ps (fun r => r.2.positions) result) :
    StaysAmong ps Turn.positions (keepWith result) :=
  h.map fun _ hd => hd

theorem openObject_staysAmong (hstart : start ∈ ps) (htarget : target.positions ⊆ ps)
    (hc : c.bodies.flatMap Body.positions ⊆ ps) (spec : ObjectSpec) (name : String) :
    StaysAmong ps Turn.positions (openObject source heap c spec start name target) := by
  unfold openObject
  split
  · exact hstart
  · exact positions_openBody hstart htarget hc

theorem closeBody_staysAmong (hc : c.bodies.flatMap Body.positions ⊆ ps) :
    StaysAmong ps Turn.positions (closeBody reg heap c) := by
  unfold closeBody
  split
  · exact positions_enter (List.nil_subset _) hc
  next body rest hb =>
    rw [hb, List.flatMap_cons, List.append_subset] at hc
    rcases List.cons_subset.1 hc.1 with ⟨hstart, htarget⟩
    exact takeWith_staysAmong (complete_staysAmong hstart htarget hc.2)

theorem readScalar_staysAmong (hp : token.position ∈ ps) (type : ScalarType) :
    StaysAmong ps (fun _ => []) (readScalar type token) := by
  cases type with
  | string =>
      simp only [readScalar]
      split
      · exact List.nil_subset _
      · exact hp
  | bool | int | uint | float =>
      simp only [readScalar]
      split
      · exact hp
      · exact staysAmong_report hp _

theorem takeScalar_staysAmong (hp : token.position ∈ ps) (hstart : start ∈ ps)
    (hc : c.bodies.flatMap Body.positions ⊆ ps) (type : ScalarType) (more : Nat)
    (before : List Value) :
    StaysAmong ps Turn.positions (takeScalar heap c field type start more before token) := by
  refine (readScalar_staysAmong hp type).bind fun v _ => ?_
  cases more with
  | zero => exact takeWith_staysAmong (storeField_staysAmong hstart hc _)
  | succ n => exact positions_enter (List.cons_subset.2 ⟨hstart, List.nil_subset _⟩) hc

theorem beginObject_staysAmong (hp : token.position ∈ ps) (htarget : target.positions ⊆ ps)
    (hc : c.bodies.flatMap Body.positions ⊆ ps) :
    StaysAmong ps Turn.positions (beginObject reg heap c target token) := by
  have hstart : token.position :: target.positions ⊆ ps := List.cons_subset.2 ⟨hp, htarget⟩
  unfold beginObject
  dsimp only
  split
  · exact positions_enter hstart hc
  · refine (resolve_staysAmong hp _).bind fun r _ => ?_
    exact takeWith_staysAmong (deliver_staysAmong htarget hc)
  · split
    · exact positions_enter hstart hc
    · split
      · exact positions_enter htarget hc
      · split
        · exact positions_enter hstart hc
        · exact takeWith_staysAmong (deliver_staysAmong htarget hc)
        · exact hp
  · exact hp
  · exact hp

theorem makeCopy_staysAmong {templateStart : Position} (hstart : start ∈ ps)
    (htemplate : templateStart ∈ ps) (htarget : target.positions ⊆ ps)
    (hc : c.bodies.flatMap Body.positions ⊆ ps) (template name : String) :
    StaysAmong ps Turn.positions
      (makeCopy reg source heap c start template templateStart name target) := by
  unfold makeCopy
  split
  · exact htemplate
  · refine (staysAmong_report hstart _).bind fun copied _ => ?_
    exact positions_enter (List.cons_subset.2 ⟨hstart, htarget⟩) hc

theorem beginBlock_staysAmong {mode : Mode} (hp : token.position ∈ ps) (hmode : mode.positions ⊆ ps)
    (hc : c.bodies.flatMap Body.positions ⊆ ps) (block : Block) :
    StaysAmong ps Turn.positions (beginBlock heap c block mode token) := by
  unfold beginBlock
  split
  · exact hp
  · exact positions_enter hmode hc

theorem beginField_staysAmong (hp : token.position ∈ ps)
    (hc : c.bodies.flatMap Body.positions ⊆ ps) (name : String) :
    StaysAmong ps Turn.positions (beginField heap c name token) := by
  unfold beginField
  repeat' split
  · exact hp
  · exact hp
  · exact positions_enter (List.nil_subset _) hc

theorem beginItem_staysAmong (hp : token.position ∈ ps)
    (hc : c.bodies.flatMap Body.positions ⊆ ps) :
    StaysAmong ps Turn.positions (beginItem reg heap c token) := by
  unfold beginItem
  split
  · exact closeBody_staysAmong hc
  · exact beginBlock_staysAmong hp (List.nil_subset _) hc _
  · repeat' split
    · exact beginBlock_staysAmong hp (List.nil_subset _) hc _
    · exact beginBlock_staysAmong hp (List.nil_subset _) hc _
    · exact beginField_staysAmong hp hc _
  · exact staysAmong_unexpected hp _

theorem beginValue_staysAmong (hp : token.position ∈ ps)
    (hc : c.bodies.flatMap Body.positions ⊆ ps) :
    StaysAmong ps Turn.positions (beginValue heap c field token) := by
  have hstart : [token.position] ⊆ ps := List.cons_subset.2 ⟨hp, List.nil_subset _⟩
  unfold beginValue
  dsimp only
  split
  · exact positions_enter hstart hc
  · split
    · exact positions_enter hstart hc
    · exact staysAmong_unexpected hp _
  · split
    · split
      · exact positions_enter hstart hc
      · exact staysAmong_unexpected hp _
    · split
      · exact keepWith_staysAmong (storeField_staysAmong hp hc _)
      · exact takeScalar_staysAmong hp hp hc _ _ _

theorem takeCharacter_staysAmong {mode : Mode} (hp : token.position ∈ ps)
    (hmode : mode.positions ⊆ ps) (hc : c.bodies.flatMap Body.positions ⊆ ps) (character : Char) :
    StaysAmong ps Turn.positions (takeCharacter heap c character mode token) := by
  unfold takeCharacter
  split
  · exact positions_enter hmode hc
  · exact staysAmong_unexpected hp _

theorem takeSeparator_staysAmong {mode : Mode} (hp : token.position ∈ ps)
    (hmode : mode.positions ⊆ ps) (hc : c.bodies.flatMap Body.positions ⊆ ps) (close : Char) :
    StaysAmong ps Turn.positions (takeSeparator heap c close mode token) := by
  unfold takeSeparator
  repeat' split
  · exact positions_enter hmode hc
  · exact positions_enter hmode hc
  · exact staysAmong_unexpected hp _

/-- A turn reports and keeps no position but that of its token and those kept before. -/
theorem turn_staysAmong :
    StaysAmong (token.position :: c.positions) Turn.positions (turn reg source heap c token) := by
  -- What a turn may report or keep: the token, what the mode has kept, and what the bodies have.
  have hp : token.position ∈ token.position :: c.positions := List.mem_cons_self
  have hc : c.bodies.flatMap Body.positions ⊆ token.position :: c.positions :=
    List.subset_cons_of_subset _ bodies_subset_positions
  have hmode : c.mode.positions ⊆ token.position :: c.positions :=
    List.subset_cons_of_subset _ (List.subset_append_left _ _)
  unfold turn
  dsimp only
  cases hm : c.mode <;> rw [hm] at hmode <;> simp only [Mode.positions] at hmode <;> dsimp only
  case object target => exact beginObject_staysAmong hp hmode hc
  case used target =>
    split
    · exact (resolve_staysAmong hp _).bind fun r _ =>
        takeWith_staysAmong (deliver_staysAmong hmode hc)
    · exact staysAmong_unexpected hp _
  case typed spec start target =>
    rcases List.cons_subset.1 hmode with ⟨hstart, htarget⟩
    split
    · exact positions_enter hmode hc
    · exact openObject_staysAmong hstart htarget hc _ _
    · exact staysAmong_unexpected hp _
  case named spec start name target =>
    rcases List.cons_subset.1 hmode with ⟨hstart, htarget⟩
    split
    · exact openObject_staysAmong hstart htarget hc _ _
    · exact (resolveTyped_staysAmong hstart _ _).bind fun r _ =>
        takeWith_staysAmong (deliver_staysAmong htarget hc)
    · exact (resolveTyped_staysAmong hstart _ _).bind fun r _ =>
        keepWith_staysAmong (deliver_staysAmong htarget hc)
  case cloning start target =>
    rcases List.cons_subset.1 hmode with ⟨hstart, htarget⟩
    split
    · exact positions_enter (List.cons_subset.2 ⟨hstart, List.cons_subset.2 ⟨hp, htarget⟩⟩) hc
    · exact staysAmong_unexpected hp _
  case cloningFrom start template templateStart target =>
    rcases List.cons_subset.1 hmode with ⟨hstart, hrest⟩
    rcases List.cons_subset.1 hrest with ⟨htemplate, htarget⟩
    split
    · exact makeCopy_staysAmong hstart htemplate htarget hc _ _
    · exact staysAmong_unexpected hp _
  case cloned copy start target =>
    rcases List.cons_subset.1 hmode with ⟨hstart, htarget⟩
    split
    · exact (staysAmong_report hstart _).bind fun spec _ => positions_openBody hstart htarget hc
    · exact keepWith_staysAmong (complete_staysAmong hstart htarget hc)
  case including start target =>
    split
    · split
      · exact hp
      · exact positions_enter hmode hc
    · exact staysAmong_unexpected hp _
  case includingPath start path target =>
    split
    · exact hmode
    · exact staysAmong_unexpected hp _
  case item => exact beginItem_staysAmong hp hc
  case itemEnd => exact takeSeparator_staysAmong hp (List.nil_subset _) hc _
  case constantsColon => exact takeCharacter_staysAmong hp (List.nil_subset _) hc _
  case constantsOpen => exact takeCharacter_staysAmong hp (List.nil_subset _) hc _
  case constant =>
    split
    · exact positions_enter (List.nil_subset _) hc
    · exact positions_enter (List.nil_subset _) hc
    · exact staysAmong_unexpected hp _
  case constantColon name => exact takeCharacter_staysAmong hp (List.nil_subset _) hc _
  case constantValue name =>
    split
    · exact List.append_subset.2 ⟨List.nil_subset _, hc⟩
    · exact staysAmong_unexpected hp _
  case constantEnd => exact takeSeparator_staysAmong hp (List.nil_subset _) hc _
  case templatesColon => exact takeCharacter_staysAmong hp (List.nil_subset _) hc _
  case templatesOpen => exact takeCharacter_staysAmong hp (List.nil_subset _) hc _
  case template =>
    split
    · exact positions_enter (List.nil_subset _) hc
    · exact positions_enter (List.nil_subset _) hc
  case templateEnd => exact takeSeparator_staysAmong hp (List.nil_subset _) hc _
  case fieldColon field => exact takeCharacter_staysAmong hp (List.nil_subset _) hc _
  case fieldValue field => exact beginValue_staysAmong hp hc
  case scalar field type start more before =>
    exact takeScalar_staysAmong hp (hmode List.mem_cons_self) hc _ _ _
  case listItem field type start before =>
    split
    · exact takeWith_staysAmong (storeField_staysAmong (hmode List.mem_cons_self) hc _)
    · exact (readScalar_staysAmong hp type).bind fun v _ => positions_enter hmode hc
  case listEnd field type start before =>
    have hlist : (Mode.listItem field type start before).positions ⊆
        token.position :: c.positions := hmode
    exact takeSeparator_staysAmong hp hlist hc _
  case element field start before =>
    split
    · exact takeWith_staysAmong (storeField_staysAmong (hmode List.mem_cons_self) hc _)
    · have hkept : [start, token.position] ⊆ token.position :: c.positions :=
        List.cons_subset.2 ⟨hmode List.mem_cons_self, List.cons_subset.2 ⟨hp, List.nil_subset _⟩⟩
      exact positions_enter hkept hc
  case elementEnd field start before =>
    have hlist : (Mode.element field start before).positions ⊆ token.position :: c.positions :=
      hmode
    exact takeSeparator_staysAmong hp hlist hc _
  case finished root =>
    split
    · exact List.nil_subset _
    · exact staysAmong_unexpected hp _

theorem angle_of_storeField {heap' : Heap} {c' : Context} {vs : List Value}
    (h : storeField heap c field start vs = .ok (heap', c')) : c'.mode.angle? = none := by
  unfold storeField at h
  split at h
  · cases h
    rfl
  · rcases bind_eq_ok h with ⟨_, -, h⟩
    cases h
    rfl

theorem angle_of_deliver {heap' : Heap} {c' : Context}
    (h : deliver reg heap c target r = .ok (heap', c')) : c'.mode.angle? = none := by
  cases target with
  | root => cases h; rfl
  | template => cases h; rfl
  | field field start =>
      rcases bind_eq_ok h with ⟨_, -, h⟩
      exact angle_of_storeField h
  | element field start first before =>
      rcases bind_eq_ok h with ⟨_, -, h⟩
      cases h
      rfl

theorem angle_of_complete {heap' : Heap} {c' : Context}
    (h : complete reg heap c target r start = .ok (heap', c')) : c'.mode.angle? = none := by
  rcases bind_eq_ok h with ⟨_, -, h⟩
  exact angle_of_deliver h

/-- An include begins with a `<`, whose position is kept to its end. -/
theorem angle_of_move {heap' : Heap} {c' : Context} {p : Position}
    (h : Move reg source heap c token heap' c') (hangle : c'.mode.angle? = some p) :
    token = ⟨.punct '<', p⟩ ∨ c.mode.angle? = some p := by
  cases h with
  | @lead mode hlead =>
      have hmode : mode.angle? = some p := hangle
      generalize c.mode = before at hlead
      cases hlead
      case «include» hl =>
        cases hmode
        exact .inl (by rw [← hl])
      case path hl hne => exact .inr hmode
      all_goals cases hmode
  | constant hmode hl => cases hangle
  | refer hrefers hdeliver => rw [angle_of_deliver hdeliver] at hangle; cases hangle
  | openNew hopens hconcrete => cases hangle
  | copy hmode hl hr hcopy => cases hangle
  | openCopy hmode hl hspec => cases hangle
  | endCopy hmode hl hcomplete => rw [angle_of_complete hcomplete] at hangle; cases hangle
  | close hmode hl hbodies hcomplete => rw [angle_of_complete hcomplete] at hangle; cases hangle
  | store hgathers hstore => rw [angle_of_storeField hstore] at hangle; cases hangle

end

/-- How a step fails, and with what. -/
inductive Failed (env : Environment) (s : State) : Error → Prop where
  /-- a token cannot be read -/
  | token {flaw p} (hflaw : s.document.tokens.next = .error (flaw, p)) :
      Failed env s ⟨.badString flaw, some (s.document.locate p)⟩
  /-- what stands behind a `$` cannot be read -/
  | name {dollar behind flaw p} (hdollar : s.document.tokens.next = .ok (dollar, behind))
      (hl : dollar.lexeme = .punct '$') (hflaw : behind.next = .error (flaw, p)) :
      Failed env s ⟨.badString flaw, some (s.document.locate p)⟩
  /-- what stands behind a `$` cannot be expanded -/
  | constant {dollar behind token after cause}
      (hdollar : s.document.tokens.next = .ok (dollar, behind)) (hl : dollar.lexeme = .punct '$')
      (hname : behind.next = .ok (token, after)) :
      Failed env s ⟨cause, some (s.document.locate token.position)⟩
  | turn {token after cause p} (hread : s.document.tokens.next = .ok (token, after))
      (hturn : Reader.turn env.registry s.document.source s.heap s.document.context token =
        .error (cause, p)) : Failed env s ⟨cause, some (s.document.locate p)⟩
  /-- the file of an include is refused -/
  | opening {token after path start target cause}
      (hread : s.document.tokens.next = .ok (token, after))
      (hmode : s.document.context.mode = .includingPath start path target)
      (hopen : openFile env s.openFiles (s.document.directory.join ⟨path⟩) = .error cause) :
      Failed env s ⟨cause, some (s.document.locate start)⟩
  /-- the object of an include does not fit where the include stands -/
  | resuming {token after w rest root cause p}
      (hread : s.document.tokens.next = .ok (token, after)) (hend : token.lexeme = .eof)
      (hmode : s.document.context.mode = .finished root) (hwaiting : s.waiting = w :: rest)
      (hcomplete : complete env.registry s.heap w.document.context w.target root w.start =
        .error (cause, p)) : Failed env s ⟨cause, some (w.document.locate p)⟩

section

variable {env : Environment} {s : State} {doc : Document} {e : Error}

theorem located_eq_error {α : Type} {result : Result α} (h : doc.located result = .error e) :
    ∃ cause p, result = .error (cause, p) ∧ e = ⟨cause, some (doc.locate p)⟩ := by
  cases result with
  | error fault => cases h; exact ⟨fault.1, fault.2, rfl, rfl⟩
  | ok a => cases h

theorem read_eq_ok {tokens after : TokenStream} {token : Token}
    (h : doc.read tokens = .ok (token, after)) : tokens.next = .ok (token, after) :=
  mapError_ok (located_ok h)

theorem read_eq_error {tokens : TokenStream} (h : doc.read tokens = .error e) :
    ∃ flaw p, tokens.next = .error (flaw, p) ∧ e = ⟨.badString flaw, some (doc.locate p)⟩ := by
  unfold Document.read at h
  cases hnext : tokens.next with
  | ok r => rw [hnext] at h; cases h
  | error fault =>
      rw [hnext] at h
      cases h
      exact ⟨fault.1, fault.2, rfl, rfl⟩

theorem expand_eq_error {origin : Position} {behind : TokenStream}
    (h : doc.expand env origin behind = .error e) :
    (∃ flaw p, behind.next = .error (flaw, p) ∧ e = ⟨.badString flaw, some (doc.locate p)⟩) ∨
      ∃ token after cause, behind.next = .ok (token, after) ∧
        e = ⟨cause, some (doc.locate token.position)⟩ := by
  rcases bind_eq_error h with hread | ⟨⟨token, after⟩, hread, h⟩
  · exact .inl (read_eq_error hread)
  · refine .inr ⟨token, after, e.cause, read_eq_ok hread, ?_⟩
    rcases located_eq_error h with ⟨cause, p, hresult, rfl⟩
    repeat' split at hresult
    all_goals cases hresult
    all_goals rfl

/-- Every step that fails does so in one of these ways. -/
theorem failed_of_step (h : step env s = .error e) : Failed env s e := by
  rcases bind_eq_error h with hread | ⟨⟨token, after⟩, hread, h⟩
  · rcases read_eq_error hread with ⟨flaw, p, hflaw, rfl⟩
    exact .token hflaw
  have hnext := read_eq_ok hread
  dsimp only at h
  split at h
  next hl =>
    rcases bind_eq_error h with hexpand | ⟨document, hexpand, h⟩
    · rcases expand_eq_error hexpand with ⟨flaw, p, hflaw, rfl⟩ | ⟨name, rest, cause, hname, rfl⟩
      · exact .name hnext hl hflaw
      · exact .constant hnext hl hname
    · cases h
  next hl =>
    rcases bind_eq_error h with hturn | ⟨t, hturn, h⟩
    · rcases located_eq_error hturn with ⟨cause, p, hfault, rfl⟩
      exact .turn hnext hfault
    -- The token got its turn. What can still fail is to open a file or to go on behind an include.
    have hcases := turn_cases (located_ok hturn)
    cases t with
    | take heap context => cases h
    | keep heap context => cases h
    | enter path start target =>
        rcases bind_eq_error (map_eq_error_iff.1 h) with hopen | ⟨opened, -, h⟩
        · rcases located_eq_error hopen with ⟨cause, p, hresult, rfl⟩
          cases hopened : openFile env s.openFiles (s.document.directory.join ⟨path⟩) with
          | ok r => rw [hopened] at hresult; cases hresult
          | error refused =>
              rw [hopened] at hresult
              cases hresult
              exact .opening hnext hcases hopened
        · cases h
    | leave root =>
        have hend := eof_of_leave (located_ok hturn)
        dsimp only at h
        split at h
        · cases h
        next w rest hwaiting =>
          rcases bind_eq_error (map_eq_error_iff.1 h) with hcomplete | ⟨completed, -, h⟩
          · rcases located_eq_error hcomplete with ⟨cause, p, hfault, rfl⟩
            exact .resuming hnext hend hcases hwaiting hfault
          · cases h

end

end GraphText.Reader

import GraphText.Proofs.Heap.Misfits
import GraphText.Proofs.Reader.Given
import GraphText.Proofs.Reader.Located
import GraphText.Proofs.Token.Marks

/-!
# Reading for a store

The reader and the store each have an idea of the values that a field takes. The
reader goes by the type of the values, their number and whether they stand in
brackets; the store checks what it is given. The two agree. Whatever the reader has
read for a field, a store of it fails only if it names a choice or a flag that was
not declared.

So nobody ever sees the other messages of a store. They would have to come from a
store of values that were read, or from a copy, which stores what it fetches. All
other errors of the reader are its own.

## Main definitions

* `Blames`: a result that reports misfits only for certain reasons.
* `State.Refuses`: a store or a copy that fails.

## Theorems

* `turn_blames`: a turn reports misfits of stores and copies only.
* `misfit_of_step`: the same of a step.
* `store_fails_undeclared`: how a store of what was read can fail.
-/

namespace GraphText.Reader

/-- The result reports a misfit only for one of these reasons. -/
def Blames {α : Type} (why : Cause → Prop) : Result α → Prop
  | .ok _ => True
  | .error (cause, _) => cause.IsMisfit → why cause

section

variable {α β : Type} {why : Cause → Prop}

theorem Blames.bind {x : Result α} {f : α → Result β} (h : Blames why x)
    (hf : ∀ a, x = .ok a → Blames why (f a)) : Blames why (x >>= f) := by
  cases x with
  | error fault => exact h
  | ok a => exact hf a rfl

theorem Blames.map {x : Result α} {f : α → β} (h : Blames why x) : Blames why (x.map f) := by
  cases x with
  | error fault => exact h
  | ok a => trivial

theorem blames_report {x : Except Cause α} {p : Position}
    (h : ∀ cause, x = .error cause → cause.IsMisfit → why cause) : Blames why (report p x) := by
  cases x with
  | error cause => exact h cause rfl
  | ok a => trivial

theorem Blames.located {x : Result α} {doc : Document} {e : Error} (h : Blames why x)
    (hfault : doc.located x = .error e) (hmisfit : e.cause.IsMisfit) : why e.cause := by
  rcases located_eq_error hfault with ⟨cause, p, hx, rfl⟩
  rw [hx] at h
  exact h hmisfit

variable {reg : Registry} {source : Path} {heap : Heap} {c : Context} {token : Token}
  {field : FieldSpec} {target : Target} {start : Position} {r : Ref}

/-- A store into the innermost of these bodies fails for one of the reasons. -/
def Excused (why : Cause → Prop) (heap : Heap) (bodies : List Body) (field : FieldSpec)
    (vs : List Value) : Prop :=
  ∀ body rest cause, bodies = body :: rest → heap.store body.object field vs = .error cause →
    why cause

theorem storeField_blames {vs : List Value} (h : Excused why heap c.bodies field vs) :
    Blames why (storeField heap c field start vs) := by
  unfold storeField
  split
  · trivial
  next body rest hbodies =>
    refine (blames_report fun cause hstore _ => ?_).bind fun _ _ => trivial
    exact h body rest cause hbodies hstore

theorem checkObject_blames {p : Position} : Blames why (checkObject reg heap field r p) := by
  unfold checkObject
  split
  · trivial
  · dsimp only
    split
    · trivial
    · exact False.elim

theorem deliver_blames
    (h : ∀ field start, target = .field field start → checkObject reg heap field r start = .ok () →
      Excused why heap c.bodies field [.object r]) :
    Blames why (deliver reg heap c target r) := by
  cases target with
  | root | template => trivial
  | field field start =>
      exact checkObject_blames.bind fun _ hcheck => storeField_blames (h field start rfl hcheck)
  | element field start first before => exact checkObject_blames.bind fun _ _ => trivial

theorem declare_blames : Blames why (declare heap c target r start) := by
  unfold declare
  split
  · trivial
  · trivial
  · exact False.elim
  · trivial

theorem complete_blames
    (h : ∀ field start, target = .field field start → checkObject reg heap field r start = .ok () →
      Excused why heap c.bodies field [.object r]) :
    Blames why (complete reg heap c target r start) := by
  refine declare_blames.bind fun named hnamed => deliver_blames ?_
  rw [(declare_eq_ok hnamed).2.1]
  exact h

theorem resolve_blames (name : String) (p : Position) : Blames why (resolve c name p) := by
  unfold resolve
  split
  · trivial
  · exact False.elim

theorem resolveTyped_blames (spec : ObjectSpec) (name : String) :
    Blames why (resolveTyped reg heap c spec name start) := by
  unfold resolveTyped
  repeat' split
  · trivial
  · exact False.elim
  · exact False.elim

theorem openObject_blames (spec : ObjectSpec) (name : String) :
    Blames why (openObject source heap c spec start name target) := by
  unfold openObject
  split
  · exact False.elim
  · trivial

theorem readScalar_blames (type : ScalarType) : Blames why (readScalar type token) := by
  cases type with
  | string =>
      simp only [readScalar]
      split
      · trivial
      · exact False.elim
  | bool | int | uint | float =>
      simp only [readScalar]
      split
      · exact False.elim
      · refine blames_report fun cause h hmisfit => ?_
        have h := map_eq_error_iff.1 h
        simp only [Literal.bool, Literal.int, Literal.uint, Literal.float] at h
        repeat' split at h
        all_goals cases h
        exact hmisfit.elim

theorem takeScalar_blames {type : ScalarType} {more : Nat} {before : List Value}
    (hlast : more = 0 → ∀ v, readScalar type token = .ok v →
      Excused why heap c.bodies field (before ++ [v])) :
    Blames why (takeScalar heap c field type start more before token) := by
  refine (readScalar_blames type).bind fun v hv => ?_
  cases more with
  | zero => exact (storeField_blames (hlast rfl v hv)).map
  | succ n => trivial

theorem beginBlock_blames (block : Block) (mode : Mode) :
    Blames why (beginBlock heap c block mode token) := by
  unfold beginBlock
  split
  · exact False.elim
  · trivial

theorem beginField_blames (name : String) : Blames why (beginField heap c name token) := by
  unfold beginField
  repeat' split
  · exact False.elim
  · exact False.elim
  · trivial

theorem takeCharacter_blames (character : Char) (mode : Mode) :
    Blames why (takeCharacter heap c character mode token) := by
  unfold takeCharacter
  split
  · trivial
  · exact False.elim

theorem takeSeparator_blames (close : Char) (mode : Mode) :
    Blames why (takeSeparator heap c close mode token) := by
  unfold takeSeparator
  repeat' split
  · trivial
  · trivial
  · exact False.elim

/-- The stores and the copy that a token may bring about fail for one of the reasons. -/
structure Reasons (why : Cause → Prop) (reg : Registry) (heap : Heap) (c : Context)
    (token : Token) : Prop where
  store : ∀ {field vs body rest cause}, HasValues reg heap c token field vs (body :: rest) →
    heap.store body.object field vs = .error cause → why cause
  copy : ∀ {template r cause}, c.scopes.template? template = some r →
    heap.copy reg r true = .error cause → why cause

namespace Reasons

variable {outer c' : Context} {bodies : List Body} {vs : List Value}

theorem excused (h : Reasons why reg heap c token)
    (hvalues : HasValues reg heap c token field vs bodies) : Excused why heap bodies field vs := by
  intro body rest cause hbodies hstore
  exact h.store (hbodies ▸ hvalues) hstore

theorem deliver (h : Reasons why reg heap c token)
    (hobject : HasObject reg heap c token r target outer) (hbodies : c'.bodies = outer.bodies) :
    Blames why (deliver reg heap c' target r) := by
  refine deliver_blames fun field start htarget hcheck => ?_
  subst htarget
  rw [hbodies]
  exact h.excused (.object hobject hcheck)

theorem complete (h : Reasons why reg heap c token)
    (hobject : HasObject reg heap c token r target outer) (hbodies : c'.bodies = outer.bodies)
    (start : Position) : Blames why (complete reg heap c' target r start) := by
  refine complete_blames fun field start htarget hcheck => ?_
  subst htarget
  rw [hbodies]
  exact h.excused (.object hobject hcheck)

theorem beginObject (h : Reasons why reg heap c token) (hmode : c.mode = .object target) :
    Blames why (beginObject reg heap c target token) := by
  unfold Reader.beginObject
  split
  · trivial
  next name hl =>
    refine (resolve_blames name _).bind fun r hr => ?_
    have hne : ∀ word, token.lexeme ≠ .name word := by simp [hl]
    have hobject : HasObject reg heap c token r target c :=
      .reference (hmode ▸ .quoted hl (resolve_eq_ok hr)) (fun _ => ⟨hne _, hne _⟩) (by simp [hl])
    exact (h.deliver hobject rfl).map
  next word hl =>
    split
    · trivial
    next hclone =>
      split
      · trivial
      next huse =>
        split
        · trivial
        next r hspec hr =>
          have hobject : HasObject reg heap c token r target c :=
            .reference (hmode ▸ .bare hl hspec hr)
              (fun _ => ⟨by simpa [hl] using hclone, by simpa [hl] using huse⟩) (by simp [hl])
          exact (h.deliver hobject rfl).map
        · exact False.elim
  · exact False.elim
  · exact False.elim

theorem closeBody (h : Reasons why reg heap c token) (hmode : c.mode = .item)
    (hl : token.lexeme = .punct '\x7d') : Blames why (closeBody reg heap c) := by
  unfold Reader.closeBody
  split
  · trivial
  next body rest hbodies => exact (h.complete (.body hmode hl hbodies) rfl _).map

theorem makeCopy (h : Reasons why reg heap c token) (template name : String)
    (templateStart : Position) :
    Blames why (makeCopy reg source heap c start template templateStart name target) := by
  unfold Reader.makeCopy
  split
  · exact False.elim
  next r hr =>
    refine (blames_report fun cause hcopy _ => ?_).bind fun _ _ => trivial
    exact h.copy hr hcopy

theorem beginItem (h : Reasons why reg heap c token) (hmode : c.mode = .item) :
    Blames why (beginItem reg heap c token) := by
  unfold Reader.beginItem
  split
  next hl => exact h.closeBody hmode hl
  · exact beginBlock_blames _ _
  · repeat' split
    · exact beginBlock_blames _ _
    · exact beginBlock_blames _ _
    · exact beginField_blames _
  · exact False.elim

theorem beginValue (h : Reasons why reg heap c token) (hmode : c.mode = .fieldValue field) :
    Blames why (beginValue heap c field token) := by
  have hopen : c.mode.isBracketed = false := by rw [hmode]; rfl
  have hvalues : ∀ start vs, Gathers token (.fieldValue field) field start vs →
      Excused why heap c.bodies field vs := by
    intro start vs hgathers
    refine h.excused (.gathered (hmode ▸ hgathers) fun hclose => ?_)
    rw [hopen] at hclose
    cases hclose
  unfold Reader.beginValue
  dsimp only
  -- The type of the field says which value is wanted; only a field without places is stored at
  -- once, or one with a single place.
  split
  · trivial
  · split
    · trivial
    · exact False.elim
  next type htype =>
    split
    · split
      · trivial
      · exact False.elim
    next hlist =>
      have hlist : field.kind.isList = false := by simpa using hlist
      split
      next harity => exact (storeField_blames (hvalues _ _ (.none htype hlist harity))).map
      next more harity =>
        refine takeScalar_blames fun hmore v hv => ?_
        exact hvalues _ _ (.only htype hlist (by rw [harity, hmore]) hv)

end Reasons

/-- A turn reports misfits of the stores and copies that it makes. -/
theorem turn_blames (h : Reasons why reg heap c token) :
    Blames why (turn reg source heap c token) := by
  unfold turn
  dsimp only
  -- One case for each mode. Only where an object or values are complete something is stored, and
  -- what is stored there is what has been read.
  cases hm : c.mode <;> dsimp only
  case object target => exact h.beginObject hm
  case used target =>
    split
    next name hl =>
      refine (resolve_blames name _).bind fun r hr => ?_
      have hobject : HasObject reg heap c token r target c := by
        refine .reference (hm ▸ .used hl (resolve_eq_ok hr)) (fun hmode => ?_) (by simp [hl])
        rw [hm] at hmode
        cases hmode
      exact (h.deliver hobject rfl).map
    · exact False.elim
  case typed spec start target =>
    split
    · trivial
    · exact openObject_blames _ _
    · exact False.elim
  case named spec start name target =>
    have hreferred : ∀ r, token.lexeme ≠ .punct '\x7b' →
        resolveTyped reg heap c spec name start = .ok r →
        HasObject reg heap c token r target c := by
      intro r hbody hr
      rcases resolveTyped_eq_ok hr with ⟨hresolved, hderived⟩
      refine .reference (hm ▸ .typed hresolved hderived) (fun hmode => ?_) hbody
      rw [hm] at hmode
      cases hmode
    split
    · exact openObject_blames _ _
    next hl =>
      refine (resolveTyped_blames spec name).bind fun r hr => (h.deliver ?_ rfl).map
      exact hreferred r (by simp [hl]) hr
    next hbody _ =>
      refine (resolveTyped_blames spec name).bind fun r hr => (h.deliver ?_ rfl).map
      exact hreferred r hbody hr
  case cloning start target =>
    split
    · trivial
    · exact False.elim
  case cloningFrom start template templateStart target =>
    split
    · exact h.makeCopy _ _ _
    · exact False.elim
  case cloned copy start target =>
    split
    · refine (blames_report fun cause hlookup hmisfit => ?_).bind fun _ _ => trivial
      exact absurd hmisfit (not_isMisfit_of_lookup hlookup)
    next hbody => exact (h.complete (.copy hm hbody) rfl _).map
  case including start target =>
    split
    · split
      · exact False.elim
      · trivial
    · exact False.elim
  case includingPath start path target =>
    split
    · trivial
    · exact False.elim
  case item => exact h.beginItem hm
  case itemEnd => exact takeSeparator_blames _ _
  case constantsColon => exact takeCharacter_blames _ _
  case constantsOpen => exact takeCharacter_blames _ _
  case constant =>
    split
    · trivial
    · trivial
    · exact False.elim
  case constantColon name => exact takeCharacter_blames _ _
  case constantValue name =>
    split
    · trivial
    · exact False.elim
  case constantEnd => exact takeSeparator_blames _ _
  case templatesColon => exact takeCharacter_blames _ _
  case templatesOpen => exact takeCharacter_blames _ _
  case template =>
    split
    · trivial
    · trivial
  case templateEnd => exact takeSeparator_blames _ _
  case fieldColon field => exact takeCharacter_blames _ _
  case fieldValue field => exact h.beginValue hm
  case scalar field type start more before =>
    refine takeScalar_blames fun hmore v hv => ?_
    have hgathers : Gathers token c.mode field start (before ++ [v]) := by
      rw [hm, hmore]
      exact .last hv
    refine h.excused (.gathered hgathers fun hclose => ?_)
    rw [hm] at hclose
    cases hclose
  case listItem field type start before =>
    split
    next hl =>
      have hgathers : Gathers token c.mode field start before := hm ▸ .list
      exact (storeField_blames (h.excused (.gathered hgathers fun _ => hl))).map
    · exact (readScalar_blames type).bind fun v _ => trivial
  case listEnd field type start before => exact takeSeparator_blames _ _
  case element field start before =>
    split
    next hl =>
      have hgathers : Gathers token c.mode field start [.objects before] := hm ▸ .objects
      exact (storeField_blames (h.excused (.gathered hgathers fun _ => hl))).map
    · trivial
  case elementEnd field start before => exact takeSeparator_blames _ _
  case finished root =>
    split
    · trivial
    · exact False.elim

end

section

variable {env : Environment} {base : Nat} {s : State} {e : Error}

theorem not_isMisfit_of_expand {doc : Document} {origin : Position} {behind : TokenStream}
    (h : doc.expand env origin behind = .error e) : ¬ e.cause.IsMisfit := by
  rcases bind_eq_error h with hread | ⟨⟨token, after⟩, hread, h⟩
  · rcases read_eq_error hread with ⟨flaw, p, -, rfl⟩
    exact id
  · rcases located_eq_error h with ⟨cause, p, hresult, rfl⟩
    repeat' split at hresult
    all_goals cases hresult
    all_goals exact id

theorem not_isMisfit_of_openFile {isOpen : List Path} {path : Path} {cause : Cause}
    (h : openFile env isOpen path = .error cause) : ¬ cause.IsMisfit := by
  unfold openFile at h
  dsimp only at h
  repeat' split at h
  all_goals cases h
  all_goals exact id

theorem not_isMisfit_of_enter {after : TokenStream} {path : String} {start : Position}
    {target : Target} (h : s.enter env after path start target = .error e) :
    ¬ e.cause.IsMisfit := by
  rcases bind_eq_error h with hrefused | ⟨opened, -, h⟩
  · rcases located_eq_error hrefused with ⟨cause, p, hreport, rfl⟩
    cases hopen : openFile env s.openFiles (s.document.directory.join ⟨path⟩) with
    | error other =>
        rw [hopen] at hreport
        cases hreport
        exact not_isMisfit_of_openFile hopen
    | ok opened =>
        rw [hopen] at hreport
        cases hreport
  · cases h

theorem not_isMisfit_of_start {heap : Heap} {input : Input}
    (h : input.start env heap = .error e) : ¬ e.cause.IsMisfit := by
  cases input with
  | text t => cases h
  | file path =>
      simp only [Input.start] at h
      split at h
      next cause hopen =>
        cases h
        exact not_isMisfit_of_openFile hopen
      · cases h

/-- A store of values that have been read fails, or the copy of a template does. -/
inductive State.Refuses (env : Environment) (s : State) (cause : Cause) : Prop where
  | store {field vs body} (hread : s.HasRead env field vs body)
      (hstore : s.heap.store body.object field vs = .error cause) : s.Refuses env cause
  | copy {template r} (htemplate : s.document.context.scopes.template? template = some r)
      (hcopy : s.heap.copy env.registry r true = .error cause) : s.Refuses env cause

theorem reasons_of_read {token : Token} {after : TokenStream}
    (hread : s.document.read s.document.tokens = .ok (token, after))
    (hl : token.lexeme ≠ .punct '$') :
    Reasons (s.Refuses env) env.registry s.heap s.document.context token where
  store hvalues hstore := .store (.inside hread hl hvalues) hstore
  copy htemplate hcopy := .copy htemplate hcopy

theorem included_blames {token : Token} {after : TokenStream} {root : Ref} {w : Waiting}
    {ws : List Waiting} (hread : s.document.read s.document.tokens = .ok (token, after))
    (hend : token.lexeme = .eof) (hmode : s.document.context.mode = .finished root)
    (hwaiting : s.waiting = w :: ws) :
    Blames (s.Refuses env)
      (complete env.registry s.heap w.document.context w.target root w.start) := by
  refine complete_blames fun field start htarget hcheck body rest cause hbodies hstore => ?_
  exact .store (.included hread hend hmode hwaiting htarget hbodies hcheck) hstore

/-- A step reports misfits of a store of values that have been read, or of a copy. -/
theorem misfit_of_step (h : step env s = .error e) (hmisfit : e.cause.IsMisfit) :
    s.Refuses env e.cause := by
  rw [step_eq] at h
  rcases bind_eq_error h with hread | ⟨⟨token, after⟩, hread, h⟩
  · rcases read_eq_error hread with ⟨flaw, p, -, rfl⟩
    exact hmisfit.elim
  dsimp only at h
  by_cases hl : token.lexeme = .punct '$'
  · rw [if_pos hl] at h
    exact absurd hmisfit (not_isMisfit_of_expand (map_eq_error_iff.1 h))
  rw [if_neg hl] at h
  rcases bind_eq_error h with hturn | ⟨t, hturn, h⟩
  · exact (turn_blames (reasons_of_read hread hl)).located hturn hmisfit
  -- The turn is made, and what may fail is to change the document.
  have hcases := turn_cases (located_ok hturn)
  cases t with
  | take heap context => cases h
  | keep heap context => cases h
  | enter path start target => exact absurd hmisfit (not_isMisfit_of_enter (map_eq_error_iff.1 h))
  | leave root =>
      have hend := eof_of_leave (located_ok hturn)
      dsimp only [Turn.outcome] at h
      split at h
      · cases h
      next w ws hwaiting =>
        rcases bind_eq_error (map_eq_error_iff.1 h) with hcomplete | ⟨completed, -, h⟩
        · exact (included_blames hread hend hcases hwaiting).located hcomplete hmisfit
        · cases h

/-- What a state of a reading refuses is not refused as a misfit. -/
theorem State.Refuses.not_isMisfit {cause : Cause} (h : s.Refuses env cause)
    (hvalid : env.registry.IsValid) (hsound : s.Sound base)
    (htyped : s.Typed env.registry base) : ¬ cause.IsMisfit := by
  cases h with
  | store hread hstore =>
      have hfits := (hread.fits hsound htyped).2.2
      exact ((FieldKind.store?_eq_error_iff hfits).1
        (Heap.store_eq_error_iff.1 hstore)).not_isMisfit
  -- A template is complete, and so is everything that is copied with it.
  | copy htemplate hcopy =>
      have hsource := (hsound.sound.named _ List.mem_cons_self _ _
        (Scopes.names_of_template? htemplate)).1
      refine Heap.not_isMisfit_of_copy hvalid hcopy fun x hx => ?_
      have hcompleted := (hsound.sound.completed_of_reaches hsource hx).1
      exact htyped.objects x hcompleted.base_le hcompleted.lt_size

/-- Reading reports no misfits. -/
theorem not_isMisfit_of_read {heap : Heap} {input : Input} (hvalid : env.registry.IsValid)
    (h : input.read env heap = .error e) : ¬ e.cause.IsMisfit := by
  cases hstart : input.start env heap with
  | error e' =>
      rw [Input.read_of_refused hstart] at h
      cases h
      exact not_isMisfit_of_start hstart
  | ok start =>
      rw [Input.read_of_start hstart] at h
      rcases steps_of_error h with ⟨s, hs, hstep⟩
      have hsound := steps_sound (start_sound hstart) hs
      have htyped := steps_typed hvalid (start_sound hstart) (start_typed hstart) hs
      intro hmisfit
      exact (misfit_of_step hstep hmisfit).not_isMisfit hvalid hsound htyped hmisfit

end

/-- Whenever values have been read for a field, the field is one of the type of the object that they
    were read for, the next step stores them, and a store of them in any object fails if and only if
    they name a choice or a flag that was not declared for the field. So reading fails for nothing
    else that a store checks: neither for the types of values nor for their number. -/
theorem store_fails_undeclared {env : Environment} {specs : List ObjectSpec} {heap : Heap}
    {input : Input} (hspecs : Registry.empty.addAll specs = .ok env.registry) :
    (∀ start s field vs body, input.start env heap = .ok start → Steps env start s →
      s.HasRead env field vs body →
        env.registry.find? (s.heap.get body.object).typeName = some body.spec ∧
        field ∈ body.spec.fields ∧ s.Stores env body.object field vs ∧
        ∀ (i : Instance) cause,
          i.store field vs = .error cause ↔ field.kind.Undeclared vs cause) ∧
    ∀ e, input.read env heap = .error e → ¬ e.cause.IsMisfit := by
  have hvalid := Registry.isValid_of_addAll hspecs
  refine ⟨fun start s field vs body hstart hs hread => ?_, fun e => not_isMisfit_of_read hvalid⟩
  have hsound := steps_sound (start_sound hstart) hs
  have htyped := steps_typed hvalid (start_sound hstart) (start_typed hstart) hs
  rcases hread.fits hsound htyped with ⟨hspec, hfield, hfits⟩
  refine ⟨hspec, List.mem_of_find?_eq_some hfield, hread.stores, fun i cause => ?_⟩
  rw [Instance.store_eq_error_iff, FieldKind.store?_eq_error_iff hfits]

/-- The mode of a lamp. -/
def lampMode : FieldSpec := ⟨"mode", .flags [("On", 1)], false⟩

/-- Reading lamps, which have a mode, without files. -/
def Environment.lamps : Environment :=
  { registry := ⟨[{ typeName := "Lamp", fields := [lampMode] }]⟩
    files := { canonical? := fun _ => none, read := fun _ => .error "" }
    options := {} }

/-- A lamp with a mode that there is not. -/
def dimmedLamp : Input :=
  .text "Lamp \x7b mode: \"On|Dim\" \x7d"

/-- The mode is read, and the store of it is what fails. -/
theorem store_fails_undeclared_lamp :
    (∃ (s : State) (body : Body), s.HasRead .lamps lampMode [.string "On|Dim"] body ∧
      s.Stores .lamps body.object lampMode [.string "On|Dim"]) ∧
    (∀ (i : Instance) cause, i.store lampMode [.string "On|Dim"] = .error cause →
      cause = .unknownFlag "Dim" "On|Dim") ∧
    ∃ e, dimmedLamp.read .lamps .empty = .error e ∧ e.cause = .unknownFlag "Dim" "On|Dim" ∧
      ¬ e.cause.IsMisfit := by
  have hspecs : Registry.empty.addAll Environment.lamps.registry.specs =
      .ok Environment.lamps.registry := rfl
  have hstate : (dimmedLamp.stateAfter? .lamps .empty 4).any (fun s =>
      s.document.context.mode = .fieldValue lampMode ∧ s.document.context.bodies.length = 1 ∧
        (s.document.read s.document.tokens).toOption.map (fun next => next.1.lexeme) =
          some (.quoted "On|Dim")) = true := by
    decide +kernel
  have hanswer : (dimmedLamp.answerWithin? .lamps .empty 40).any (fun answer =>
      match answer with
      | .error e => e.cause = .unknownFlag "Dim" "On|Dim"
      | .ok _ => false) = true := by
    decide +kernel
  rcases (Option.any_eq_true _ _).1 hstate with ⟨s, hs, hstate⟩
  rcases of_decide_eq_true hstate with ⟨hmode, hbodies, hnext⟩
  rcases Input.steps_of_stateAfter? hs with ⟨start, hstart, hsteps⟩
  rcases List.length_eq_one_iff.1 hbodies with ⟨body, hbodies⟩
  rcases Option.map_eq_some_iff.1 hnext with ⟨⟨token, after⟩, hnext, hl⟩
  -- In front of the quoted string the value of the mode has been read.
  have hread : s.HasRead .lamps lampMode [.string "On|Dim"] body := by
    have hvalue : readScalar .string token = .ok (.string "On|Dim") := by
      rw [readScalar, hl]
    have hgathers : Gathers token s.document.context.mode lampMode token.position
        [.string "On|Dim"] := hmode ▸ .only rfl rfl rfl hvalue
    have hvalues : HasValues Environment.lamps.registry s.heap s.document.context token lampMode
        [.string "On|Dim"] [body] := by
      rw [← hbodies]
      refine .gathered hgathers fun hclose => ?_
      rw [hmode] at hclose
      cases hclose
    exact .inside (eq_ok_of_toOption hnext) (by rw [hl]; exact Lexeme.noConfusion) hvalues
  rcases (store_fails_undeclared hspecs).1 start s lampMode _ body hstart hsteps hread with
    ⟨-, -, hstores, hundeclared⟩
  refine ⟨⟨s, body, hread, hstores⟩, fun i cause hstore => ?_, ?_⟩
  · cases (hundeclared i cause).1 hstore with
    | flag hblank hname =>
        have hfirst : FlagTable.undeclared? [("On", 1)] "On|Dim" = some "Dim" := by decide +kernel
        rw [hfirst, Option.some.injEq] at hname
        rw [hname]
  · rcases (Option.any_eq_true _ _).1 hanswer with ⟨answer, hanswer, hfails⟩
    cases answer with
    | ok out => cases hfails
    | error e =>
        have hread := Input.read_of_answerWithin? hanswer
        exact ⟨e, hread, of_decide_eq_true hfails, (store_fails_undeclared hspecs).2 e hread⟩

end GraphText.Reader

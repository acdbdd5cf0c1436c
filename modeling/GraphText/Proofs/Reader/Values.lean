import GraphText.Proofs.Reader.Objects

/-!
# Reading values and blocks

Behind the colon of a field stand scalars side by side, a list of them, an object
or a list of objects. Whatever it is, the value is stored when its last word is
read, and that it can be stored follows for lists from their elements alone. The
scalars of a field without brackets are checked together, for flags have to be
flags of their table.

Blocks stand in front of fields. So a block begins only where no field has been
read, and leaves the body as it was.

## Theorems

* `reads_object`, `reads_objects`, `reads_list`, `reads_scalars`: the values of fields.
* `reads_field`: a field.
* `reads_constants`, `reads_templates`, `reads_constant`, `reads_scalar`: blocks and items.
-/

namespace GraphText.Reader

section

variable {env : Environment} {base : Nat} {known known' : Scopes} {heap heap' : Heap}
  {scopes : Scopes} {bodies : List Body} {mode : Mode} {target : Target} {r n : Ref}
  {d : Cursor} {l : Lexeme} {rest : List Lexeme} {ok : Bool} {name : String} {spec : ObjectSpec}

/-- In front of an object, a mode that takes objects gives way to the mode of the object. -/
theorem Ready.enterObject {reg : Registry} {p : Phrase (.part .object)} {role : Role}
    (h : Ready env base known heap ⟨scopes, bodies, mode⟩ d (p.lexemes ++ rest))
    (hcheck : p.check reg role known = some known') (target : Position → Target)
    (hturn : ∀ token : Token, token.lexeme ≠ .punct ']' →
      turn env.registry Location.stringSource heap ⟨scopes, bodies, mode⟩ token =
        .ok (.keep heap ⟨scopes, bodies, .object (target token.position)⟩))
    (hnext : ∀ q, Ready env base known heap ⟨scopes, bodies, .object (target q)⟩ d
        (p.lexemes ++ rest) →
      accepts env heap ⟨scopes, bodies, .object (target q)⟩ d = ok) :
    accepts env heap ⟨scopes, bodies, mode⟩ d = ok := by
  rcases exists_head hcheck nofun with ⟨l, ls, hlexemes, hopens⟩
  rw [hlexemes] at h hnext
  have hne : ∀ c, c ≠ '[' → l ≠ .punct c := fun c hc heq => hc (hopens c heq)
  refine h.keep known (fun heq => hne '$' (by decide) (Option.some.inj heq)) fun token htoken => ?_
  have hlexeme : token.lexeme = l := htoken
  exact ⟨heap, ⟨scopes, bodies, .object (target token.position)⟩,
    hturn token (hlexeme ▸ hne ']' (by decide)), h.names, hnext token.position⟩

theorem reads_object {p : Phrase (.part .object)} (hp : p.Reads env base) :
    (Phrase.object p).Reads env base := by
  intro field known known' heap scopes bodies mode d rest ok hcheck hbegins hfollows h hnext
  cases hbegins
  rcases guard_bind_eq_some.1 hcheck with ⟨htype, hcheck⟩
  have h : Ready env base known heap ⟨scopes, bodies, .fieldValue field⟩ d (p.lexemes ++ rest) := h
  refine h.enterObject hcheck (.field field) (fun token _ => ?_) fun q h' => ?_
  · simp only [turn, beginValue, htype]
    rfl
  · refine hp hcheck ⟨.field field q, rfl, rfl⟩ hfollows h' ?_
    rintro heap' scopes' bodies' mode' d' hkeeps ⟨target, r, htarget, rfl, rfl⟩ h''
    cases htarget
    exact hnext heap' scopes' _ _ d' hkeeps ⟨rfl, rfl⟩ h''

/-- The bracket that closes the value of a field. -/
theorem Ready.closeValue {field : FieldSpec} {start : Position} {vs : List Value}
    (h : Ready env base known heap ⟨scopes, bodies, mode⟩ d (.punct ']' :: rest))
    (hturn : ∀ q, turn env.registry Location.stringSource heap ⟨scopes, bodies, mode⟩
      ⟨.punct ']', q⟩ = takeWith (storeField heap ⟨scopes, bodies, mode⟩ field start vs))
    (hstore : (field.kind.store? field.name vs).isOk = true)
    (hnext : ∀ heap' d', heap.KeepsHeads heap' →
      Ready env base known heap' ⟨scopes, marked bodies, .itemEnd⟩ d' rest →
      accepts env heap' ⟨scopes, marked bodies, .itemEnd⟩ d' = ok) :
    accepts env heap ⟨scopes, bodies, mode⟩ d = ok := by
  rcases exists_storeField heap ⟨scopes, bodies, mode⟩ start hstore with ⟨heap', hstored, hkeeps⟩
  refine h.take known (by decide) fun q => ⟨heap', ⟨scopes, marked bodies, .itemEnd⟩, ?_,
    h.names.keep hkeeps.types, fun d' h' => hnext heap' d' hkeeps h'⟩
  rw [hturn, hstored]
  rfl

theorem reads_objects {p : Phrase (.list .objects)} (hp : p.Reads env base) :
    (Phrase.objects p).Reads env base := by
  intro field known known' heap scopes bodies mode d rest ok hcheck hbegins hfollows h hnext
  cases hbegins
  rcases guard_bind_eq_some.1 hcheck with ⟨htype, hcheck⟩
  have h : Ready env base known heap ⟨scopes, bodies, .fieldValue field⟩ d
      (.punct '[' :: (p.lexemes ++ .punct ']' :: rest)) := by
    simpa [Phrase.lexemes] using h
  refine h.go (by decide) fun start => ⟨.element field start [], ?_, fun d₁ h₁ => ?_⟩
  · simp only [turn, beginValue, htype]
    rfl
  refine hp hcheck ⟨_, _, _, rfl, rfl⟩ ⟨rest, rfl⟩ h₁ ?_
  rintro heap₂ scopes₂ bodies₂ mode₂ d₂ hkeeps
    ⟨⟨field', start', before, before', hmode, rfl⟩, rfl⟩ h₂
  cases hmode
  have hstore : (field.kind.store? field.name [.objects before']).isOk = true := by
    rcases field with ⟨name, kind, hidden⟩
    cases kind <;> first | rfl | cases htype
  exact h₂.closeValue (fun q => rfl) hstore fun heap' d' hkeeps' h' =>
    hnext heap' scopes₂ _ _ d' (hkeeps.trans hkeeps') ⟨rfl, rfl⟩ h'

theorem reads_list {p : Phrase (.list .scalars)} (hp : p.Reads env base) :
    (Phrase.list p).Reads env base := by
  intro field known known' heap scopes bodies mode d rest ok hcheck hbegins hfollows h hnext
  cases hbegins
  have hscalars : ∃ type : ScalarType, field.kind.valueType = .scalar type ∧
      field.kind.isList = true ∧ p.check env.registry type known = some known' := by
    simp only [Phrase.check] at hcheck
    split at hcheck
    next type htype =>
      rcases guard_bind_eq_some.1 hcheck with ⟨hlist, hcheck⟩
      exact ⟨type, htype, hlist, hcheck⟩
    · cases hcheck
  rcases hscalars with ⟨type, htype, hlist, hcheck⟩
  have h : Ready env base known heap ⟨scopes, bodies, .fieldValue field⟩ d
      (.punct '[' :: (p.lexemes ++ .punct ']' :: rest)) := by
    simpa [Phrase.lexemes] using h
  refine h.go (by decide) fun start => ⟨.listItem field type start [], ?_, fun d₁ h₁ => ?_⟩
  · simp only [turn, beginValue, htype, hlist, if_true]
    rfl
  refine hp hcheck ⟨_, _, _, rfl⟩ ⟨rest, rfl⟩ h₁ ?_
  rintro heap₂ scopes₂ bodies₂ mode₂ d₂ hkeeps
    ⟨⟨field', type', start', before, before', hmode, rfl⟩, rfl⟩ h₂
  cases hmode
  -- All scalars that were read are of the type of the field.
  have htypes : ∀ v ∈ before', v.type = .scalar type := h₂.mode_fits.2.2.2
  have hstore : (field.kind.store? field.name before').isOk = true := by
    rcases field with ⟨name, kind, hidden⟩
    cases kind <;> cases hlist
    cases htype
    have hchecked : FieldKind.checkTypes name type before' = .ok () :=
      FieldKind.checkTypes_eq_ok_iff.2 htypes
    simp only [FieldKind.store?, hchecked]
    rfl
  exact h₂.closeValue (fun q => rfl) hstore fun heap' d' hkeeps' h' =>
    hnext heap' scopes₂ _ _ d' (hkeeps.trans hkeeps') ⟨rfl, rfl⟩ h'

/-- Scalars side by side, of which the first is looked at in any mode for a scalar. -/
theorem Ready.scalars {field : FieldSpec} {type : ScalarType} (start : Position → Position)
    {word : Lexeme} {words : List Lexeme} {before vs : List Value}
    (hturn : ∀ l q, (∀ c, l ≠ .punct c) →
      turn env.registry Location.stringSource heap ⟨scopes, bodies, mode⟩ ⟨l, q⟩ =
        takeScalar heap ⟨scopes, bodies, mode⟩ field type (start q) words.length before ⟨l, q⟩)
    (hvs : (word :: words).mapM (scalar? type) = some vs)
    (hstore : (field.kind.store? field.name (before ++ vs)).isOk = true)
    (h : Ready env base known heap ⟨scopes, bodies, mode⟩ d (word :: words ++ rest))
    (hnext : ∀ heap' d', heap.KeepsHeads heap' →
      Ready env base known heap' ⟨scopes, marked bodies, .itemEnd⟩ d' rest →
      accepts env heap' ⟨scopes, marked bodies, .itemEnd⟩ d' = ok) :
    accepts env heap ⟨scopes, bodies, mode⟩ d = ok := by
  -- As for written scalars, the induction is over the words in any mode that takes the next one.
  induction words generalizing word before vs mode start d with
  | nil =>
      rw [List.mapM_cons] at hvs
      rcases Option.bind_eq_some_iff.1 hvs with ⟨v, hv, hvs⟩
      cases hvs
      refine h.take known (not_punct_of_scalar? hv '$') fun q => ?_
      rcases exists_storeField heap ⟨scopes, bodies, mode⟩ (start q) hstore with
        ⟨heap', hstored, hkeeps⟩
      refine ⟨heap', ⟨scopes, marked bodies, .itemEnd⟩, ?_,
        h.names.keep hkeeps.types, fun d' h' => hnext heap' d' hkeeps h'⟩
      rw [hturn word q (not_punct_of_scalar? hv)]
      simp only [takeScalar, readScalar_of_scalar? hv q, bind, Except.bind, List.length_nil]
      exact congrArg takeWith hstored
  | cons next words ih =>
      rw [List.mapM_cons] at hvs
      rcases Option.bind_eq_some_iff.1 hvs with ⟨v, hv, hvs⟩
      rcases Option.bind_eq_some_iff.1 hvs with ⟨vs', hvs', heq⟩
      cases heq
      refine h.go (not_punct_of_scalar? hv '$') fun q =>
        ⟨.scalar field type (start q) words.length (before ++ [v]), ?_, fun d₁ h₁ => ?_⟩
      · rw [hturn word q (not_punct_of_scalar? hv)]
        simp only [takeScalar, readScalar_of_scalar? hv q, bind, Except.bind, List.length_cons]
        rfl
      · refine ih (fun _ => start q) (fun l q' hl => rfl) hvs' ?_ h₁
        rw [List.append_assoc]
        exact hstore

theorem reads_scalars (words : List Lexeme) : (Phrase.scalars words).Reads env base := by
  intro field known known' heap scopes bodies mode d rest ok hcheck hbegins hfollows h hnext
  cases hbegins
  have hscalars : ∃ type vs, field.kind.valueType = .scalar type ∧ field.kind.isList = false ∧
      words.length = field.kind.arity ∧ words.mapM (scalar? type) = some vs ∧
      (field.kind.store? field.name vs).isOk = true ∧ known = known' := by
    simp only [Phrase.check] at hcheck
    split at hcheck
    next type htype =>
      rcases guard_bind_eq_some.1 hcheck with ⟨⟨hlist, harity⟩, hcheck⟩
      rcases Option.bind_eq_some_iff.1 hcheck with ⟨vs, hvs, hcheck⟩
      rcases guard_bind_eq_some.1 hcheck with ⟨hstore, hcheck⟩
      exact ⟨type, vs, htype, hlist, harity, hvs, hstore, Option.some.inj hcheck⟩
    · cases hcheck
  rcases hscalars with ⟨type, vs, htype, hlist, harity, hvs, hstore, rfl⟩
  cases words with
  | nil =>
      -- Nothing is read for a field of no values.
      cases hvs
      refine h.keep known (fun heq => (hfollows _ heq).2.2 rfl) fun token htoken => ?_
      rcases exists_storeField heap ⟨scopes, bodies, .fieldValue field⟩ token.position hstore with
        ⟨heap', hstored, hkeeps⟩
      refine ⟨heap', ⟨scopes, marked bodies, .itemEnd⟩, ?_,
        h.names.keep hkeeps.types, fun h' =>
          hnext heap' scopes _ _ d hkeeps ⟨rfl, rfl⟩ h'⟩
      rw [List.length_nil] at harity
      simp only [turn, beginValue, htype, hlist, ← harity]
      exact congrArg keepWith hstored
  | cons word words =>
      have hstore : (field.kind.store? field.name ([] ++ vs)).isOk = true := hstore
      refine h.scalars id (fun l q hl => ?_) hvs hstore fun heap' d' hkeeps h' =>
        hnext heap' scopes _ _ d' hkeeps ⟨rfl, rfl⟩ h'
      rw [List.length_cons] at harity
      simp only [turn, beginValue, htype, hlist, ← harity]
      rfl

theorem reads_field {p : Phrase (.part .value)} (hp : p.Reads env base) (name : String) :
    (Phrase.field name p).Reads env base := by
  intro spec known known' heap scopes bodies mode d rest ok hcheck hbegins hfollows h hnext
  rcases hbegins with ⟨rfl, body, outer, rfl, rfl⟩
  rcases guard_bind_eq_some.1 hcheck with ⟨⟨hconstants, htemplates⟩, hcheck⟩
  rcases Option.bind_eq_some_iff.1 hcheck with ⟨field, hfield, hcheck⟩
  refine h.go Lexeme.name_ne_punct fun q => ⟨.fieldColon field, ?_, fun d₁ h₁ => ?_⟩
  · simp only [turn, beginItem, if_neg hconstants, if_neg htemplates, beginField, hfield]
    rfl
  refine h₁.go (by decide) fun q => ⟨.fieldValue field, rfl, fun d₂ h₂ => ?_⟩
  exact hp hcheck rfl hfollows h₂ hnext

/-- A word that begins a block. -/
theorem beginBlock_of_unseen {body : Body} {outer : List Body} (hseen : body.seenField = false)
    (block : Block) (mode' : Mode) (token : Token) :
    beginBlock heap ⟨scopes, body :: outer, mode⟩ block mode' token =
      .ok (.take heap ⟨scopes, body :: outer, mode'⟩) := by
  rcases body with ⟨object, spec, start, target, seen⟩
  cases hseen
  rfl

theorem reads_constants {p : Phrase (.list .constants)} (hp : p.Reads env base)
    (keyword : Bool) : (Phrase.constants keyword p).Reads env base := by
  intro spec known known' heap scopes bodies mode d rest ok hcheck hbegins hfollows h hnext
  rcases hbegins with ⟨rfl, body, outer, rfl, hseen⟩
  -- With the keyword or without, the constants stand in brackets.
  have hitems : ∀ d', Ready env base known heap ⟨scopes, body :: outer, .constant⟩ d'
        (p.lexemes ++ .punct ']' :: rest) →
      accepts env heap ⟨scopes, body :: outer, .constant⟩ d' = (p.obeys Row.required && ok) := by
    intro d' h'
    refine hp hcheck rfl ⟨rest, rfl⟩ h' ?_
    rintro heap₂ scopes₂ bodies₂ mode₂ d₂ hkeeps ⟨rfl, rfl⟩ h₂
    exact h₂.go (by decide) fun q => ⟨.itemEnd, rfl, fun d'' h'' =>
      hnext heap₂ scopes₂ _ _ d'' hkeeps ⟨rfl, rfl⟩ h''⟩
  cases keyword with
  | false =>
      have h : Ready env base known heap ⟨scopes, body :: outer, .item⟩ d
          (.punct '[' :: (p.lexemes ++ .punct ']' :: rest)) := by
        simpa [Phrase.lexemes] using h
      exact h.go (by decide) fun q => ⟨.constant, beginBlock_of_unseen hseen _ _ _, hitems⟩
  | true =>
      have h : Ready env base known heap ⟨scopes, body :: outer, .item⟩ d
          (.name "CONSTANTS" :: .punct ':' :: .punct '[' :: (p.lexemes ++ .punct ']' :: rest)) := by
        simpa [Phrase.lexemes] using h
      refine h.go Lexeme.name_ne_punct fun q => ⟨.constantsColon, beginBlock_of_unseen hseen _ _ _,
        fun d₁ h₁ => ?_⟩
      refine h₁.go (by decide) fun q => ⟨.constantsOpen, rfl, fun d₂ h₂ => ?_⟩
      exact h₂.go (by decide) fun q => ⟨.constant, rfl, hitems⟩

theorem reads_templates {p : Phrase (.list .templates)} (hp : p.Reads env base) :
    (Phrase.templates p).Reads env base := by
  intro spec known known' heap scopes bodies mode d rest ok hcheck hbegins hfollows h hnext
  rcases hbegins with ⟨rfl, body, outer, rfl, hseen⟩
  have h : Ready env base known heap ⟨scopes, body :: outer, .item⟩ d
      (.name "TEMPLATES" :: .punct ':' :: .punct '[' :: (p.lexemes ++ .punct ']' :: rest)) := by
    simpa [Phrase.lexemes] using h
  refine h.go Lexeme.name_ne_punct fun q => ⟨.templatesColon, beginBlock_of_unseen hseen _ _ _,
    fun d₁ h₁ => ?_⟩
  refine h₁.go (by decide) fun q => ⟨.templatesOpen, rfl, fun d₂ h₂ => ?_⟩
  refine h₂.go (by decide) fun q => ⟨.template, rfl, fun d₃ h₃ => ?_⟩
  refine hp hcheck ⟨rfl, rfl⟩ ⟨rest, rfl⟩ h₃ ?_
  rintro heap₂ scopes₂ bodies₂ mode₂ d₂ hkeeps ⟨rfl, rfl⟩ h₂
  exact h₂.go (by decide) fun q => ⟨.itemEnd, rfl, fun d'' h'' =>
    hnext heap₂ scopes₂ _ _ d'' hkeeps ⟨rfl, rfl⟩ h''⟩

theorem reads_constant (name value : String) : (Phrase.constant name value).Reads env base := by
  intro demand known known' heap scopes bodies mode d rest ok hcheck hbegins hfollows h hnext
  cases hbegins
  cases hcheck
  refine h.go Lexeme.name_ne_punct fun q => ⟨.constantColon name, rfl, fun d₁ h₁ => ?_⟩
  refine h₁.go (by decide) fun q => ⟨.constantValue name, rfl, fun d₂ h₂ => ?_⟩
  exact h₂.take known Lexeme.quoted_ne_punct fun q => ⟨heap,
    ⟨scopes.defineConstant name value, bodies, .constantEnd⟩, rfl,
    h₂.names.defineConstant name value,
    fun d' h' => hnext heap _ bodies _ d' (.refl heap) ⟨rfl, rfl⟩ h'⟩

theorem reads_scalar (word : Lexeme) : (Phrase.scalar word).Reads env base := by
  intro type known known' heap scopes bodies mode d rest ok hcheck hbegins hfollows h hnext
  rcases hbegins with ⟨field, start, before, rfl⟩
  rcases guard_bind_eq_some.1 hcheck with ⟨hsome, hcheck⟩
  cases hcheck
  rcases Option.isSome_iff_exists.1 hsome with ⟨v, hv⟩
  have hword := not_punct_of_scalar? hv
  refine h.go (hword '$') fun q => ⟨.listEnd field type start (before ++ [v]), ?_, fun d' h' =>
    hnext heap scopes bodies _ d' (.refl heap) ⟨⟨field, type, start, before, _, rfl, rfl⟩, rfl⟩ h'⟩
  simp only [turn, if_neg (hword ']'), readScalar_of_scalar? hv q]
  rfl
end

end GraphText.Reader

import GraphText.Proofs.Heap.Isomorphic
import GraphText.Proofs.Reader.Conforming
import GraphText.Proofs.Reader.Frozen
import GraphText.Proofs.Reader.Ready

/-!
# Reading objects

`Phrase.Reads` says what reading comes to for a phrase of any symbol. It has to
say where the reader stands in front of the phrase and behind it, and symbols
differ in this: an object is read for a target, a field in a body and a scalar of
a list among those before it. `Symbol.Begins` and `Symbol.Ends` collect it.

A phrase need not end where its last word ends. Behind the two names of a clone
there may be a body, and behind a type and a name a semicolon. The reader looks
at the next word then, so it matters that this word does not go on with the
phrase, as `Symbol.Follows` says.

For objects there is a lemma for each form. A body is read as `Phrase.Reads.body`
says, whether its object is new or a copy. That a template can be copied is not a
matter of words at all: it is complete, so all that it refers to is there and of
its type.

## Main definitions

* `Symbol.Begins`, `Symbol.Ends`, `Symbol.Follows`: what is around a phrase of a symbol.
* `Phrase.Reads`: reading a phrase depends on its commas and on what follows.

## Theorems

* `Ready.exists_copy`: a template can be copied.
* `Phrase.Reads.body`: a body up to its brace.
* `reads_use`, `reads_quoted`, `reads_bare`, `reads_mention`: references.
* `reads_typed`, `reads_clone`, `reads_cloneWith`: new objects and copies.
-/

namespace GraphText.Reader

/-- Where the reader stands in front of a phrase that is to meet a demand. -/
def Symbol.Begins : (a : Symbol) → a.Demand → List Body → Mode → Prop
  | .part .object, role, _, mode => ∃ target, mode = .object target ∧ target.role = role
  | .part .block, _, bodies, mode =>
    mode = .item ∧ ∃ body outer, bodies = body :: outer ∧ body.seenField = false
  | .part .field, spec, bodies, mode =>
    mode = .item ∧ ∃ body outer, bodies = body :: outer ∧ body.spec = spec
  | .part .constant, _, _, mode => mode = .constant
  | .part .value, field, _, mode => mode = .fieldValue field
  | .part .scalar, type, _, mode => ∃ field start before, mode = .listItem field type start before
  | .list .body, spec, bodies, mode =>
    mode = .item ∧ ∃ body outer, bodies = body :: outer ∧ body.spec = spec ∧
      body.seenField = false
  | .list .fields, spec, bodies, mode =>
    mode = .item ∧ ∃ body outer, bodies = body :: outer ∧ body.spec = spec
  | .list .constants, _, _, mode => mode = .constant
  | .list .templates, role, _, mode => mode = .template ∧ role = .template
  | .list .objects, role, _, mode =>
    ∃ field start before, mode = .element field start before ∧ role = .value field.kind.required
  | .list .scalars, type, _, mode => ∃ field start before, mode = .listItem field type start before

/-- Where the reader stands behind a phrase in front of which it stood there. -/
def Symbol.Ends : (a : Symbol) → List Body → Mode → List Body → Mode → Prop
  | .part .object, bodies, mode, bodies', mode' =>
    ∃ target r, mode = .object target ∧ mode' = target.mode r ∧ bodies' = target.bodies bodies
  | .part .block, bodies, _, bodies', mode' => mode' = .itemEnd ∧ bodies' = bodies
  | .part .field, bodies, _, bodies', mode' => mode' = .itemEnd ∧ bodies' = marked bodies
  | .part .constant, bodies, _, bodies', mode' => mode' = .constantEnd ∧ bodies' = bodies
  | .part .value, bodies, _, bodies', mode' => mode' = .itemEnd ∧ bodies' = marked bodies
  | .part .scalar, bodies, mode, bodies', mode' =>
    (∃ field type start before before', mode = .listItem field type start before ∧
      mode' = .listEnd field type start before') ∧ bodies' = bodies
  | .list .body, bodies, _, bodies', mode' | .list .fields, bodies, _, bodies', mode' =>
    mode' = .item ∧ (bodies' = bodies ∨ bodies' = marked bodies)
  | .list .constants, bodies, _, bodies', mode' => mode' = .constant ∧ bodies' = bodies
  | .list .templates, bodies, _, bodies', mode' => mode' = .template ∧ bodies' = bodies
  | .list .objects, bodies, mode, bodies', mode' =>
    (∃ field start before before', mode = .element field start before ∧
      mode' = .element field start before') ∧ bodies' = bodies
  | .list .scalars, bodies, mode, bodies', mode' =>
    (∃ field type start before before', mode = .listItem field type start before ∧
      mode' = .listItem field type start before') ∧ bodies' = bodies

/-- What may stand behind a phrase: behind a row what closes it, and behind anything else nothing
    that would belong to it. -/
def Symbol.Follows : Symbol → List Lexeme → Prop
  | .list row, rest => ∃ behind, rest = .punct row.close :: behind
  | .part _, rest => ∀ l, rest.head? = some l →
    l ≠ .punct '\x7b' ∧ l ≠ .punct ';' ∧ l ≠ .punct '$'

/-- Reading a phrase: if it passes the check, all depends on its commas and on what follows. -/
def Phrase.Reads (env : Environment) (base : Nat) {a : Symbol} (p : Phrase a) : Prop :=
  ∀ {demand : a.Demand} {known known' : Scopes} {heap : Heap} {scopes : Scopes}
    {bodies : List Body} {mode : Mode} {d : Cursor} {rest : List Lexeme} {ok : Bool},
    p.check env.registry demand known = some known' → a.Begins demand bodies mode →
    a.Follows rest → Ready env base known heap ⟨scopes, bodies, mode⟩ d (p.lexemes ++ rest) →
    (∀ heap' scopes' bodies' mode' d', heap.KeepsHeads heap' → a.Ends bodies mode bodies' mode' →
      Ready env base known' heap' ⟨scopes', bodies', mode'⟩ d' rest →
      accepts env heap' ⟨scopes', bodies', mode'⟩ d' = ok) →
    accepts env heap ⟨scopes, bodies, mode⟩ d = (p.obeys Row.required && ok)

section

variable {env : Environment} {base : Nat} {known known' : Scopes} {heap heap' : Heap}
  {scopes : Scopes} {bodies : List Body} {mode : Mode} {target : Target} {r n : Ref}
  {d : Cursor} {l : Lexeme} {rest : List Lexeme} {ok : Bool} {name : String} {spec : ObjectSpec}

/-- The object that is referred to, where it goes. -/
theorem Ready.exists_refer {ls : List Lexeme}
    (h : Ready env base known heap ⟨scopes, bodies, mode⟩ d ls)
    (htarget : mode.target? = some target)
    (hrefer : target.role.refer env.registry name known = some known') :
    known' = known ∧ ∃ r heap', scopes.resolve? name = some r ∧
      deliver env.registry heap ⟨scopes, bodies, mode⟩ target r =
        .ok (heap', ⟨scopes, target.bodies bodies, target.mode r⟩) ∧ heap.KeepsHeads heap' := by
  rcases Role.refer_eq_some hrefer with ⟨spec, htype, haccepts, hsame⟩
  rcases exists_resolve h.names htype with ⟨r, hr, hspec⟩
  have hfits : target.Fits env.registry heap bodies := h.mode_fits.target_fits htarget
  rcases exists_deliver scopes mode hfits hspec haccepts with ⟨heap', hdeliver, hkeeps⟩
  exact ⟨hsame, r, heap', hr, hdeliver, hkeeps⟩

/-- A reference that ends with this word. -/
theorem Ready.refer (h : Ready env base known heap ⟨scopes, bodies, mode⟩ d (l :: rest))
    (hl : l ≠ .punct '$') (htarget : mode.target? = some target)
    (hrefer : target.role.refer env.registry name known = some known')
    (hturn : ∀ q r, scopes.resolve? name = some r →
      turn env.registry Location.stringSource heap ⟨scopes, bodies, mode⟩ ⟨l, q⟩ =
        takeWith (deliver env.registry heap ⟨scopes, bodies, mode⟩ target r))
    (hnext : ∀ heap' r d', heap.KeepsHeads heap' →
      Ready env base known' heap' ⟨scopes, target.bodies bodies, target.mode r⟩ d' rest →
      accepts env heap' ⟨scopes, target.bodies bodies, target.mode r⟩ d' = ok) :
    accepts env heap ⟨scopes, bodies, mode⟩ d = ok := by
  rcases h.exists_refer htarget hrefer with ⟨rfl, r, heap', hr, hdeliver, hkeeps⟩
  refine h.take known' hl fun q => ⟨heap', ⟨scopes, target.bodies bodies, target.mode r⟩, ?_,
    h.names.keep hkeeps.types, fun d' h' => hnext heap' r d' hkeeps h'⟩
  rw [hturn q r hr, hdeliver]
  rfl

/-- The next word does not belong to the phrase, and at the end there is none. -/
theorem head_of_follows {part : Part} (h : Symbol.Follows (.part part) rest) :
    rest.headD .eof ≠ .punct '\x7b' ∧ rest.headD .eof ≠ .punct ';' := by
  cases rest with
  | nil => exact ⟨nofun, nofun⟩
  | cons l rest => exact ⟨(h l rfl).1, (h l rfl).2.1⟩

theorem reads_use (name : String) : (Phrase.use name).Reads env base := by
  intro role known known' heap scopes bodies mode d rest ok hcheck hbegins hfollows h hnext
  rcases hbegins with ⟨target, rfl, rfl⟩
  refine h.go Lexeme.name_ne_punct fun q => ⟨.used target, rfl, fun d₁ h₁ => ?_⟩
  refine h₁.refer Lexeme.quoted_ne_punct rfl hcheck (fun q r hr => ?_) fun heap' r d' hkeeps h' =>
    hnext heap' scopes _ _ d' hkeeps ⟨target, r, rfl, rfl, rfl⟩ h'
  simp only [turn, resolve, hr]
  rfl

theorem reads_quoted (name : String) : (Phrase.quoted name).Reads env base := by
  intro role known known' heap scopes bodies mode d rest ok hcheck hbegins hfollows h hnext
  rcases hbegins with ⟨target, rfl, rfl⟩
  refine h.refer Lexeme.quoted_ne_punct rfl hcheck (fun q r hr => ?_) fun heap' r d' hkeeps h' =>
    hnext heap' scopes _ _ d' hkeeps ⟨target, r, rfl, rfl, rfl⟩ h'
  simp only [turn, beginObject, resolve, hr]
  rfl

theorem reads_bare (name : String) : (Phrase.bare name).Reads env base := by
  intro role known known' heap scopes bodies mode d rest ok hcheck hbegins hfollows h hnext
  rcases hbegins with ⟨target, rfl, rfl⟩
  rcases guard_bind_eq_some.1 hcheck with ⟨⟨⟨hclone, huse⟩, hfind⟩, hrefer⟩
  refine h.refer Lexeme.name_ne_punct rfl hrefer (fun q r hr => ?_) fun heap' r d' hkeeps h' =>
    hnext heap' scopes _ _ d' hkeeps ⟨target, r, rfl, rfl, rfl⟩ h'
  simp only [turn, beginObject, if_neg hclone, if_neg huse, hfind, hr]

theorem reads_mention (type name : String) (semicolon : Bool) :
    (Phrase.mention type name semicolon).Reads env base := by
  intro role known known' heap scopes bodies mode d rest ok hcheck hbegins hfollows h hnext
  rcases hbegins with ⟨target, rfl, rfl⟩
  rcases guard_bind_eq_some.1 hcheck with ⟨⟨hclone, huse⟩, hcheck⟩
  rcases Option.bind_eq_some_iff.1 hcheck with ⟨spec, hfind, hcheck⟩
  rcases Option.bind_eq_some_iff.1 hcheck with ⟨found, hfound, hcheck⟩
  rcases guard_bind_eq_some.1 hcheck with ⟨hreaches, hrefer⟩
  refine h.go Lexeme.name_ne_punct fun start => ⟨.typed spec start target, ?_, fun d₁ h₁ => ?_⟩
  · simp only [turn, beginObject, if_neg hclone, if_neg huse, hfind]
    rfl
  refine h₁.go Lexeme.quoted_ne_punct fun q => ⟨.named spec start name target, rfl, fun d₂ h₂ => ?_⟩
  -- The name leads to an object that is of the type.
  have hresolved : ∀ r, scopes.resolve? name = some r →
      resolveTyped env.registry heap ⟨scopes, bodies, .named spec start name target⟩ spec name
        start = .ok r := by
    intro r hr
    rcases exists_resolve h.names hfound with ⟨r', hr', hspec⟩
    rw [hr, Option.some.injEq] at hr'
    subst hr'
    have hderived : env.registry.isDerivedFrom (heap.get r).typeName spec.typeName = true := by
      rw [← Registry.typeName_of_find? hspec]
      exact Registry.isDerivedFrom_of_reaches hreaches
    unfold resolveTyped
    simp only [hr, if_pos hderived]
  cases semicolon with
  | true =>
      refine h₂.refer (by decide) rfl hrefer (fun q r hr => ?_) fun heap' r d' hkeeps h' =>
        hnext heap' scopes _ _ d' hkeeps ⟨target, r, rfl, rfl, rfl⟩ h'
      simp only [turn, hresolved r hr]
      rfl
  | false =>
      rcases h₂.exists_refer rfl hrefer with ⟨rfl, r, heap', hr, hdeliver, hkeeps⟩
      refine h₂.keep known' (fun heq => (hfollows _ heq).2.2 rfl) fun token htoken =>
        ⟨heap', ⟨scopes, target.bodies bodies, target.mode r⟩, ?_,
          h.names.keep hkeeps.types,
          fun h' => hnext heap' scopes _ _ d₂ hkeeps ⟨target, r, rfl, rfl, rfl⟩ h'⟩
      have hturn : turn env.registry Location.stringSource heap
          ⟨scopes, bodies, .named spec start name target⟩ token =
            keepWith (deliver env.registry heap ⟨scopes, bodies, .named spec start name target⟩
              target r) := by
        -- The word is neither of the two that the reader looks for, so it stays.
        have hbrace : token.lexeme ≠ .punct '\x7b' := by
          rw [htoken]
          exact (head_of_follows hfollows).1
        have hsemicolon : token.lexeme ≠ .punct ';' := by
          rw [htoken]
          exact (head_of_follows hfollows).2
        simp only [turn, hresolved r hr]
        rfl
      rw [hturn, hdeliver]
      rfl

/-- The brace that closes a body. -/
theorem Ready.close {body : Body} {outer : List Body}
    (h : Ready env base known heap ⟨scopes, body :: outer, .item⟩ d (.punct '\x7d' :: rest))
    (hspec : env.registry.find? (heap.get body.object).typeName = some spec)
    (haccepts : body.target.role.accepts env.registry spec = true)
    (hdeclare : body.target.role.declare name n known.close = some known')
    (hname : (heap.get body.object).name = if name = "" then none else some name)
    (htype : heap.HasType env.registry body.object n)
    (hnext : ∀ heap' scopes' d', heap.KeepsHeads heap' →
      Ready env base known' heap' ⟨scopes', body.target.bodies outer,
        body.target.mode body.object⟩ d' rest →
      accepts env heap' ⟨scopes', body.target.bodies outer, body.target.mode body.object⟩ d' =
        ok) :
    accepts env heap ⟨scopes, body :: outer, .item⟩ d = ok := by
  have hfits : body.target.Fits env.registry heap outer :=
    (h.typed.contexts _ List.mem_cons_self).bodies.2.2.1
  rcases exists_complete .item body.start hfits hspec haccepts hdeclare hname h.names.close htype
    with ⟨heap', scopes', hcomplete, hkeeps, hnames⟩
  refine h.take known' (by decide) fun q => ⟨heap', ⟨scopes', body.target.bodies outer,
    body.target.mode body.object⟩, ?_, hnames, fun d' h' => hnext heap' scopes' d' hkeeps h'⟩
  have hclose : closeBody env.registry heap ⟨scopes, body :: outer, .item⟩ =
      takeWith (complete env.registry heap ⟨scopes.close, outer, .item⟩ body.target body.object
        body.start) := rfl
  have hturn : turn env.registry Location.stringSource heap ⟨scopes, body :: outer, .item⟩
      ⟨.punct '\x7d', q⟩ = closeBody env.registry heap ⟨scopes, body :: outer, .item⟩ := rfl
  rw [hturn, hclose, hcomplete]
  rfl

/-- A body, up to its brace. -/
theorem Phrase.Reads.body {p : Phrase (.list .body)} (hp : p.Reads env base) {body : Body}
    {outer : List Body} {inner : Scopes}
    (hcheck : p.check env.registry body.spec known = some inner) (hseen : body.seenField = false)
    (h : Ready env base known heap ⟨scopes, body :: outer, .item⟩ d
      (p.lexemes ++ .punct '\x7d' :: rest))
    (hspec : env.registry.find? (heap.get body.object).typeName = some body.spec)
    (haccepts : body.target.role.accepts env.registry body.spec = true)
    (hdeclare : body.target.role.declare name n inner.close = some known')
    (hname : (heap.get body.object).name = if name = "" then none else some name)
    (htype : heap.HasType env.registry body.object n)
    (hnext : ∀ heap' scopes' d', heap.KeepsHeads heap' →
      Ready env base known' heap' ⟨scopes', body.target.bodies outer,
        body.target.mode body.object⟩ d' rest →
      accepts env heap' ⟨scopes', body.target.bodies outer, body.target.mode body.object⟩ d' =
        ok) :
    accepts env heap ⟨scopes, body :: outer, .item⟩ d = (p.obeys Row.required && ok) := by
  refine hp hcheck ⟨rfl, body, outer, rfl, rfl, hseen⟩ ⟨rest, rfl⟩ h ?_
  rintro heap' scopes' bodies' mode' d' hkeeps ⟨rfl, hbodies⟩ h'
  -- Whether there has been a field does not matter to the brace.
  have hbody : ∃ body', bodies' = body' :: outer ∧ body'.object = body.object ∧
      body'.target = body.target := by
    rcases hbodies with rfl | rfl
    · exact ⟨body, rfl, rfl, rfl⟩
    · exact ⟨{ body with seenField := true }, rfl, rfl, rfl⟩
  rcases hbody with ⟨body', rfl, hobject, htarget⟩
  have hlt := htype.1
  rw [← hobject] at hspec hname htype hlt
  rw [← htarget] at haccepts hdeclare
  rw [← hobject, ← htarget] at hnext
  refine h'.close ?_ haccepts hdeclare ?_ (htype.keep hkeeps.types)
    fun heap'' scopes'' d'' hkeeps' h'' => hnext heap'' scopes'' d'' (hkeeps.trans hkeeps') h''
  · rw [hkeeps.types.2 _ hlt]
    exact hspec
  · rw [hkeeps.names _ hlt]
    exact hname

/-- The brace that opens the body of a new object. -/
theorem Ready.openNew (h : Ready env base known heap ⟨scopes, bodies, mode⟩ d
      (.punct '\x7b' :: rest)) {start : Position}
    (hturn : ∀ q, turn env.registry Location.stringSource heap ⟨scopes, bodies, mode⟩
      ⟨.punct '\x7b', q⟩ = openObject Location.stringSource heap ⟨scopes, bodies, mode⟩ spec start
        name target)
    (hconcrete : spec.isAbstract = false)
    (hnext : ∀ d', Ready env base known.open
        (heap.alloc (newObject Location.stringSource spec start name))
        ⟨scopes.open, { object := heap.size, spec, start, target } :: bodies, .item⟩ d' rest →
      accepts env (heap.alloc (newObject Location.stringSource spec start name))
        ⟨scopes.open, { object := heap.size, spec, start, target } :: bodies, .item⟩ d' = ok) :
    accepts env heap ⟨scopes, bodies, mode⟩ d = ok := by
  have hkeeps := Heap.keepsHeads_alloc heap (newObject Location.stringSource spec start name)
  refine h.take known.open (by decide) fun q => ⟨_, _, ?_,
    h.names.open.keep hkeeps.types, hnext⟩
  rw [hturn]
  exact openObject_eq_ok_iff.2 ⟨hconcrete, rfl⟩

theorem reads_typed {p : Phrase (.list .body)} (hp : p.Reads env base) (type : String)
    (name : Option String) : (Phrase.typed type name p).Reads env base := by
  intro role known known' heap scopes bodies mode d rest ok hcheck hbegins hfollows h hnext
  rcases hbegins with ⟨target, rfl, rfl⟩
  rcases guard_bind_eq_some.1 hcheck with ⟨⟨hclone, huse⟩, hcheck⟩
  rcases Option.bind_eq_some_iff.1 hcheck with ⟨spec, hfind, hcheck⟩
  rcases guard_bind_eq_some.1 hcheck with ⟨⟨hconcrete, haccepts⟩, hcheck⟩
  rcases Option.bind_eq_some_iff.1 hcheck with ⟨inner, hinner, hdeclare⟩
  refine h.go Lexeme.name_ne_punct fun start => ⟨.typed spec start target, ?_, fun d₁ h₁ => ?_⟩
  · simp only [turn, beginObject, if_neg hclone, if_neg huse, hfind]
    rfl
  have hname : spec.typeName = type := Registry.typeName_of_find? hfind
  -- Behind the brace, the new object is the last one of the heap.
  have hbody : ∀ d', Ready env base known.open
        (heap.alloc (newObject Location.stringSource spec start (name.getD "")))
        ⟨scopes.open, { object := heap.size, spec, start, target } :: bodies, .item⟩ d'
        (p.lexemes ++ .punct '\x7d' :: rest) →
      accepts env (heap.alloc (newObject Location.stringSource spec start (name.getD "")))
        ⟨scopes.open, { object := heap.size, spec, start, target } :: bodies, .item⟩ d' =
          (p.obeys Row.required && ok) := by
    intro d' h'
    have hkeeps := Heap.keepsHeads_alloc heap
      (newObject Location.stringSource spec start (name.getD ""))
    have hget : (heap.alloc (newObject Location.stringSource spec start (name.getD ""))).get
        heap.size = newObject Location.stringSource spec start (name.getD "") := by
      rw [Heap.get_alloc, if_pos rfl]
    have hspec : env.registry.find? ((heap.alloc (newObject Location.stringSource spec start
        (name.getD ""))).get heap.size).typeName = some spec := by
      rw [hget]
      exact (congrArg env.registry.find? hname).trans hfind
    refine hp.body hinner rfl h' hspec haccepts hdeclare ?_ (Heap.hasType_numberOf ?_ hspec)
      fun heap' scopes' d'' hkeeps' h'' =>
        hnext heap' scopes' _ _ d'' (hkeeps.trans hkeeps') ⟨target, heap.size, rfl, rfl, rfl⟩ h''
    · rw [hget]
      rfl
    · rw [Heap.size_alloc]
      exact Nat.lt_succ_self _
  cases name with
  | none =>
      have h₁ : Ready env base known heap ⟨scopes, bodies, .typed spec start target⟩ d₁
          (.punct '\x7b' :: (p.lexemes ++ .punct '\x7d' :: rest)) := by
        simpa [Phrase.lexemes] using h₁
      exact h₁.openNew (fun q => rfl) hconcrete hbody
  | some name =>
      have h₁ : Ready env base known heap ⟨scopes, bodies, .typed spec start target⟩ d₁
          (.quoted name :: .punct '\x7b' :: (p.lexemes ++ .punct '\x7d' :: rest)) := by
        simpa [Phrase.lexemes] using h₁
      refine h₁.go Lexeme.quoted_ne_punct fun q =>
        ⟨.named spec start name target, rfl, fun d₂ h₂ => ?_⟩
      exact h₂.openNew (fun q => rfl) hconcrete hbody

/-- What an object of its type keeps belongs into the fields of the type. -/
theorem isFilled_of_typed {reg : Registry} {i : Instance} (h : i.Typed reg heap) :
    i.IsFilled reg := by
  intro spec hspec name content hfind
  rcases h.slots name content hfind with ⟨field, vs, hstored⟩
  rcases hstored.found with ⟨spec', hspec', hfield⟩
  rw [hspec, Option.some.injEq] at hspec'
  subst hspec'
  exact ⟨field, hfield, FieldKind.admits_of_store hstored.store⟩

/-- A template can be copied. -/
theorem Ready.exists_copy {c : Context} {ls : List Lexeme} {template : String}
    (h : Ready env base known heap c d ls) (hr : c.scopes.template? template = some r) :
    ∃ copied, heap.copy env.registry r true = .ok (copied, heap.size) ∧
      heap.KeepsHeads copied ∧ heap.size < copied.size ∧
      (copied.get heap.size).typeName = (heap.get r).typeName := by
  have hcompleted : Completed base heap [c] r :=
    (h.sound.sound.named c List.mem_cons_self template r (Scopes.names_of_template? hr)).1
  -- All that it leads to is complete, so nothing in it is out of the heap or out of place.
  have hall : ∀ x, Relation.ReflTransGen heap.Points r x → x < heap.size ∧
      (heap.get x).Typed env.registry heap := by
    intro x hx
    have hx : Completed base heap [c] x := completed_of_points h.sound hcompleted hx
    exact ⟨hx.lt_size, h.typed.objects x hx.base_le hx.lt_size⟩
  have hgraph : heap.IsGraph env.registry r :=
    ⟨fun x hx => (hall x hx).1, fun x hx => isFilled_of_typed (hall x hx).2⟩
  have hdeep : ∃ copied, heap.deepCopy env.registry r = .ok copied := by
    refine (Heap.exists_deepCopy_iff h.valid h.declared hgraph).2 fun x hx => ?_
    rcases (hall x hx).2.concrete with ⟨spec, hspec, -⟩
    exact ⟨spec, hspec⟩
  rcases hdeep with ⟨copied, hdeep⟩
  have hcopy : heap.copy env.registry r true = .ok (copied, heap.size) :=
    Heap.copy_eq_ok_iff.2 ⟨rfl, hdeep⟩
  have hbelow := Heap.copiedBelow_of_deepCopy h.valid h.declared hgraph hdeep
  have hroot := hbelow.copied r .refl
  rw [hbelow.root_eq] at hroot
  rcases Heap.copy_eq_ok hcopy with ⟨-, hlt, -⟩
  refine ⟨copied, hcopy, Heap.keepsHeads_of_same (Nat.le_of_lt hlt) fun x hx => ?_, hlt,
    hroot.typeName⟩
  exact (Heap.deepCopy_eq_ok rfl hdeep).2.1 x hx

/-- A copy of a template under a new name, in front of its body if it has one. -/
theorem Ready.clone {template : String}
    (h : Ready env base known heap ⟨scopes, bodies, .object target⟩ d
      (.name "CLONE" :: .quoted template :: .quoted name :: rest))
    (hn : known.template? template = some n) (hspec : env.registry.specs[n]? = some spec)
    (hnext : ∀ heap' copy start d', heap.KeepsHeads heap' → heap'.HasType env.registry copy n →
      env.registry.find? (heap'.get copy).typeName = some spec →
      (heap'.get copy).name = (if name = "" then none else some name) →
      Ready env base known heap' ⟨scopes, bodies, .cloned copy start target⟩ d' rest →
      accepts env heap' ⟨scopes, bodies, .cloned copy start target⟩ d' = ok) :
    accepts env heap ⟨scopes, bodies, .object target⟩ d = ok := by
  refine h.go Lexeme.name_ne_punct fun start => ⟨.cloning start target, rfl, fun d₁ h₁ => ?_⟩
  refine h₁.go Lexeme.quoted_ne_punct fun q =>
    ⟨.cloningFrom start template q target, rfl, fun d₂ h₂ => ?_⟩
  have hlike := h₂.names.template? template
  rw [hn] at hlike
  rcases exists_of_rel hlike with ⟨r, hr, -, spec', hfind, hspec'⟩
  rw [hspec, Option.some.injEq] at hspec'
  subst hspec'
  rcases h₂.exists_copy hr with ⟨copied, hcopy, hkeeps, hgrown, htype⟩
  -- The copy is behind all that there was, and gets its name there.
  have hget : (copied.modify heap.size (renamedCopy Location.stringSource start name)).get
      heap.size = renamedCopy Location.stringSource start name (copied.get heap.size) := by
    rw [Heap.get_modify, if_pos ⟨rfl, hgrown⟩]
  have hkeeps' := hkeeps.modify (Nat.le_refl _) (renamedCopy Location.stringSource start name)
  have hfound : env.registry.find? ((copied.modify heap.size
      (renamedCopy Location.stringSource start name)).get heap.size).typeName = some spec := by
    rw [hget]
    exact (congrArg env.registry.find? htype).trans hfind
  refine h₂.take known Lexeme.quoted_ne_punct fun q => ⟨copied.modify heap.size
    (renamedCopy Location.stringSource start name),
    ⟨scopes, bodies, .cloned heap.size start target⟩, ?_, h₂.names.keep hkeeps'.types,
    fun d' h' => hnext _ heap.size start d' hkeeps' ⟨?_, spec, hfound, hspec⟩ hfound ?_ h'⟩
  · simp only [turn, makeCopy, hr, hcopy, report]
    rfl
  · rw [Heap.size_modify]
    exact hgrown
  · rw [hget]
    rfl

theorem reads_clone (template name : String) : (Phrase.clone template name).Reads env base := by
  intro role known known' heap scopes bodies mode d rest ok hcheck hbegins hfollows h hnext
  rcases hbegins with ⟨target, rfl, rfl⟩
  rcases Option.bind_eq_some_iff.1 hcheck with ⟨n, hn, hcheck⟩
  rcases Option.bind_eq_some_iff.1 hcheck with ⟨spec, hspec, hcheck⟩
  rcases guard_bind_eq_some.1 hcheck with ⟨haccepts, hdeclare⟩
  refine h.clone hn hspec fun heap₁ copy start d₁ hkeeps htype hfind hname h₁ => ?_
  have hfits : target.Fits env.registry heap₁ bodies := h₁.mode_fits.target_fits rfl
  rcases exists_complete (.cloned copy start target) start hfits hfind haccepts hdeclare hname
    h₁.names htype with ⟨heap₂, scopes₂, hcomplete, hkeeps', hnames⟩
  refine h₁.keep known' (fun heq => (hfollows _ heq).2.2 rfl) fun token htoken =>
    ⟨heap₂, ⟨scopes₂, target.bodies bodies, target.mode copy⟩, ?_, hnames, fun h₂ =>
      hnext heap₂ scopes₂ _ _ d₁ (hkeeps.trans hkeeps') ⟨target, copy, rfl, rfl, rfl⟩ h₂⟩
  have hbrace : token.lexeme ≠ .punct '\x7b' := by
    rw [htoken]
    exact (head_of_follows hfollows).1
  simp only [turn, if_neg hbrace, hcomplete]
  rfl

theorem reads_cloneWith {p : Phrase (.list .body)} (hp : p.Reads env base)
    (template name : String) : (Phrase.cloneWith template name p).Reads env base := by
  intro role known known' heap scopes bodies mode d rest ok hcheck hbegins hfollows h hnext
  rcases hbegins with ⟨target, rfl, rfl⟩
  rcases Option.bind_eq_some_iff.1 hcheck with ⟨n, hn, hcheck⟩
  rcases Option.bind_eq_some_iff.1 hcheck with ⟨spec, hspec, hcheck⟩
  rcases guard_bind_eq_some.1 hcheck with ⟨haccepts, hcheck⟩
  rcases Option.bind_eq_some_iff.1 hcheck with ⟨inner, hinner, hdeclare⟩
  have h : Ready env base known heap ⟨scopes, bodies, .object target⟩ d
      (.name "CLONE" :: .quoted template :: .quoted name :: .punct '\x7b' ::
        (p.lexemes ++ .punct '\x7d' :: rest)) := by
    simpa [Phrase.lexemes] using h
  refine h.clone hn hspec fun heap₁ copy start d₁ hkeeps htype hfind hname h₁ => ?_
  refine h₁.take known.open (by decide) fun q => ⟨heap₁, ⟨scopes.open,
    { object := copy, spec, start, target } :: bodies, .item⟩, ?_, h₁.names.open, fun d₂ h₂ => ?_⟩
  · have hlookup : env.registry.lookup (heap₁.get copy).typeName = .ok spec :=
      Registry.lookup_eq_ok_iff.2 hfind
    simp only [turn, if_true, hlookup, report]
    rfl
  · exact hp.body hinner rfl h₂ hfind haccepts hdeclare hname htype
      fun heap' scopes' d' hkeeps' h' =>
        hnext heap' scopes' _ _ d' (hkeeps.trans hkeeps') ⟨target, copy, rfl, rfl, rfl⟩ h'
end

end GraphText.Reader

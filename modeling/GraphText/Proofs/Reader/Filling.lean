import GraphText.Proofs.Reader.Ready
import GraphText.Proofs.Reader.Record

/-!
# Filling an object

The reader keeps the values of a field until the field is over, and then stores
them. So at every point the record of a body is what has been stored in its
object since the body was opened, and behind it the field that is pending. That
is `HasGiven`, about the context of the document in which the body is open.

Where the pending field is depends on what stands in front of the body. If the
body is the innermost one, the mode knows the field. If there are other bodies in
front of it, the outermost of them knows it, for that is where its object goes.
If the document waits for an include, its mode is still there.

Nothing else happens to the object: whatever is read inside other bodies or in
other documents is stored in the objects of these, and no object is open twice.

## Main definitions

* `pending`: what has been given and not been stored.
* `Filling`, `HasGiven`: what an object is while its body is read.
* `State.Filled`: the same in a state.
* `State.Follows`: a step that adds to the object what it adds to the record.

## Theorems

* `HasGiven.innermost`, `HasGiven.behind`: the own body in front, and behind other bodies.
* `HasGiven.deliver`: an object comes to its target.
* `follows_of_move`: a turn in the document of the body.
* `State.Filled.step`: every step.
-/

namespace GraphText.Reader

section

variable {env : Environment} {reg : Registry} {source : Path} {heap heap' : Heap}
  {c c' : Context} {token : Token} {target : Target} {r : Ref} {a s s' : State}
  {start : Position} {mode mode' : Mode} {field : FieldSpec} {vs : List Value} {v : Value}

/-- What has been given for this target before the object that is read now. -/
def Target.pending : Target → Record
  | .root | .template => []
  | .field f _ => [(f, [])]
  | .element f _ _ before => [(f, before.map .object)]

/-- What has been given in this mode and not been stored. -/
def Mode.pending : Mode → Record
  | .fieldColon f | .fieldValue f => [(f, [])]
  | .scalar f _ _ _ before | .listItem f _ _ before | .listEnd f _ _ before => [(f, before)]
  | .element f _ before | .elementEnd f _ before => [(f, before.map .object)]
  | mode => (mode.target?.map Target.pending).getD []

/-- What the own body has given that has not been stored, with bodies in front of it that go to
    these targets. -/
def pending (targets : List Target) (mode : Mode) : Record :=
  (targets.getLast?.map Target.pending).getD mode.pending

theorem pending_of_target? (h : mode.target? = some target) :
    mode.pending = (Mode.object target).pending := by
  cases mode <;> cases h <;> rfl

/-- The outermost of the bodies in front counts, and behind the innermost one its target does. -/
theorem pending_cons (targets : List Target) :
    pending (target :: targets) mode = pending targets (.object target) := by
  cases targets with
  | nil => rfl
  | cons next targets =>
      unfold pending
      rw [List.getLast?_cons_cons]
      cases h : (next :: targets).getLast? with
      | none => cases List.getLast?_eq_none_iff.1 h
      | some last => rfl

theorem pending_of_ne_nil {targets : List Target} (h : targets ≠ []) (mode mode' : Mode) :
    pending targets mode = pending targets mode' := by
  cases targets with
  | nil => exact absurd rfl h
  | cons target targets => rw [pending_cons, pending_cons]

theorem pending_congr {targets : List Target} (h : mode.pending = mode'.pending) :
    pending targets mode = pending targets mode' := by
  unfold pending
  rw [h]

/-- What a token leads to: it begins a field, or is a scalar of one, or adds nothing. -/
theorem pending_of_leads (h : Leads reg c token mode mode') :
    (∃ word body rest field, mode = .item ∧ token.lexeme = .name word ∧ word ≠ "CONSTANTS" ∧
      word ≠ "TEMPLATES" ∧ c.bodies = body :: rest ∧ body.spec.find? word = some field ∧
      mode' = .fieldColon field) ∨
    (∃ field vs v, Takes token mode v ∧ mode.pending = [(field, vs)] ∧
      mode'.pending = [(field, vs ++ [v])]) ∨
    ((mode = .item → ∀ word, token.lexeme = .name word →
        word = "CONSTANTS" ∨ word = "TEMPLATES") ∧
      (∀ v, ¬ Takes token mode v) ∧ mode'.pending = mode.pending ∧
      (mode.CanEnd → c.bodies ≠ [] → ¬ mode'.IsBehindValue)) := by
  -- A name in front of an item begins a field, three moves take a scalar, and all others add
  -- nothing.
  cases h with
  | field hl hconstants htemplates hbodies hfield =>
      exact .inl ⟨_, _, _, _, rfl, hl, hconstants, htemplates, hbodies, hfield, rfl⟩
  | valueFirst htype hlist harity hv =>
      exact .inr (.inl ⟨_, _, _, .first htype hlist harity hv, rfl, rfl⟩)
  | valueNext hv => exact .inr (.inl ⟨_, _, _, .next hv, rfl, rfl⟩)
  | listItem hv => exact .inr (.inl ⟨_, _, _, .item hv, rfl, rfl⟩)
  | bareConstants hl =>
      refine .inr (.inr ⟨fun _ word hword => ?_, ?_, rfl, fun _ _ => id⟩)
      · rw [hl] at hword
        cases hword
      · rintro v ⟨⟩
  | constants hl | templates hl =>
      refine .inr (.inr ⟨fun _ word hword => ?_, ?_, rfl, fun _ _ => id⟩)
      · rw [hl] at hword
        cases hword
        decide
      · rintro v ⟨⟩
  | closeNothing hl hbodies =>
      refine .inr (.inr ⟨fun _ word hword => ?_, ?_, rfl, fun _ hne => absurd hbodies hne⟩)
      · rw [hl] at hword
        cases hword
      · rintro v ⟨⟩
  | valueObject htype | valueObjects htype =>
      refine .inr (.inr ⟨(fun hitem => by cases hitem), ?_, rfl, fun _ _ => id⟩)
      rintro v ⟨htype'⟩
      rw [htype] at htype'
      cases htype'
  | valueList htype hlist =>
      refine .inr (.inr ⟨(fun hitem => by cases hitem), ?_, rfl, fun _ _ => id⟩)
      rintro v ⟨-, hlist'⟩
      rw [hlist] at hlist'
      cases hlist'
  | constantsClose | templatesClose =>
      refine .inr (.inr ⟨(fun hitem => by cases hitem), ?_, rfl, fun hend => ?_⟩)
      · rintro v ⟨⟩
      · rcases hend with hne | hitem | ⟨root, hfinished⟩
        · exact absurd rfl hne
        · cases hitem
        · cases hfinished
  | _ => exact .inr (.inr ⟨(fun hitem => by cases hitem), by rintro v ⟨⟩, rfl, fun _ _ => id⟩)

/-- What a field is given in the end: the values that are pending, and perhaps one more. -/
theorem pending_of_gathers (h : Gathers token mode field start vs)
    (hfits : mode.Fits reg heap c.bodies) :
    ∃ given, FieldOf c.bodies field ∧ field.gathered given = vs ∧
      ((∃ before v, Takes token mode v ∧ mode.pending = [(field, before)] ∧
          given = before ++ [v]) ∨
        (mode.pending = [(field, given)] ∧ ∀ v, Takes token mode v →
          ∃ field type start before, mode = .listItem field type start before)) := by
  have hfield := (gathers_fits h hfits).1
  have hscalars : ∀ {type vs}, field.kind.valueType = .scalar type → field.gathered vs = vs := by
    intro type vs htype
    refine FieldSpec.gathered_eq fun hobjects => ?_
    rw [htype] at hobjects
    cases hobjects
  -- A field without a list is stored together with its last scalar; lists are stored behind it.
  cases h with
  | last hv =>
      exact ⟨_, hfield, hscalars hfits.2.1, .inl ⟨_, _, .next hv, rfl, rfl⟩⟩
  | only htype hlist harity hv =>
      exact ⟨_, hfield, hscalars htype, .inl ⟨[], _, .first htype hlist harity hv, rfl, rfl⟩⟩
  | none htype hlist harity =>
      refine ⟨[], hfield, hscalars htype, .inr ⟨rfl, ?_⟩⟩
      rintro v ⟨-, -, harity'⟩
      rw [harity] at harity'
      cases harity'
  | list => exact ⟨_, hfield, hscalars hfits.2.1, .inr ⟨rfl, fun _ _ => ⟨_, _, _, _, rfl⟩⟩⟩
  | objects =>
      refine ⟨_, hfield, FieldSpec.gathered_objects hfits.2.1 _, .inr ⟨rfl, ?_⟩⟩
      rintro v ⟨⟩

theorem readScalar_ne_punct {type : ScalarType} (h : readScalar type token = .ok v)
    (character : Char) : token.lexeme ≠ .punct character := by
  intro hl
  cases type <;> simp [readScalar, hl, Lexeme.literal?] at h

/-- A list goes on behind each of its scalars. -/
theorem mode_of_listItem {type : ScalarType} {before : List Value} {after : TokenStream}
    (hmode : s.document.context.mode = .listItem field type start before)
    (hread : s.document.read s.document.tokens = .ok (token, after))
    (htakes : Takes token s.document.context.mode v) (hstep : step env s = .ok (.inl s')) :
    s'.document.context.mode = .listEnd field type start (before ++ [v]) := by
  rw [hmode] at htakes
  rcases htakes with - | - | hv
  have hturn : turn env.registry s.document.source s.heap s.document.context token =
      .ok (.take s.heap (s.document.context.enter
        (.listEnd field type start (before ++ [v])))) := by
    simp only [turn, hmode, if_neg (readScalar_ne_punct hv ']'), hv]
    rfl
  rw [step_of_turn hread (readScalar_ne_punct hv '$') hturn] at hstep
  cases hstep
  rfl

/-- A store goes into the innermost body, and nowhere else. -/
theorem same_of_storeField (h : storeField heap c field start vs = .ok (heap', c')) :
    c' = c.afterField ∧ heap'.size = heap.size ∧
      ∀ r, (∀ body ∈ c'.bodies.head?, body.object ≠ r) → heap'.get r = heap.get r := by
  unfold storeField at h
  split at h
  · cases h
    exact ⟨rfl, rfl, fun _ _ => rfl⟩
  next body rest hbodies =>
    rcases bind_eq_ok h with ⟨stored, hstored, h⟩
    cases h
    refine ⟨rfl, (Heap.get_of_store (report_ok hstored)).1, fun r hne => ?_⟩
    refine Heap.get_of_store_ne (report_ok hstored)
      (Ne.symm (hne { body with seenField := true } ?_))
    rw [bodies_afterField, hbodies]
    rfl

/-- So does an object that is brought to its target, and only the innermost body is marked. -/
theorem same_of_deliver (h : deliver reg heap c target r = .ok (heap', c')) :
    (c'.bodies = c.bodies ∨ c'.bodies = marked c.bodies) ∧ heap'.size = heap.size ∧
      ∀ r, (∀ body ∈ c'.bodies.head?, body.object ≠ r) → heap'.get r = heap.get r := by
  unfold deliver at h
  split at h
  · cases h
    exact ⟨.inl rfl, rfl, fun _ _ => rfl⟩
  · cases h
    exact ⟨.inl rfl, rfl, fun _ _ => rfl⟩
  · rcases bind_eq_ok h with ⟨_, -, h⟩
    rcases same_of_storeField h with ⟨rfl, hstored⟩
    exact ⟨.inr rfl, hstored⟩
  · rcases bind_eq_ok h with ⟨_, -, h⟩
    cases h
    exact ⟨.inl rfl, rfl, fun _ _ => rfl⟩

theorem same_of_complete (h : complete reg heap c target r start = .ok (heap', c')) :
    heap'.size = heap.size ∧
      ∀ r, (∀ body ∈ c'.bodies.head?, body.object ≠ r) → heap'.get r = heap.get r := by
  rcases bind_eq_ok h with ⟨named, -, hdeliver⟩
  exact (same_of_deliver hdeliver).2

/-- A copy under a new name leaves all that was there. -/
theorem same_of_copy {template copy : Ref} (hcopy : heap.copy reg template true = .ok (heap', copy))
    (hlt : r < heap.size) {f : Instance → Instance} :
    heap.size ≤ (heap'.modify copy f).size ∧ (heap'.modify copy f).get r = heap.get r := by
  rcases Heap.copy_eq_ok hcopy with ⟨rfl, hgrown, hdeep⟩
  rw [Heap.size_modify, Heap.get_modify, if_neg fun h => Nat.ne_of_lt hlt h.1]
  exact ⟨Nat.le_of_lt hgrown, (Heap.deepCopy_eq_ok rfl hdeep).2.1 r hlt⟩

/-- A turn leaves all objects as they are, except the one of the innermost body. -/
theorem Move.same (h : Move reg source heap c token heap' c') (hlt : r < heap.size)
    (hne : ∀ body ∈ c'.bodies.head?, body.object ≠ r) :
    heap.size ≤ heap'.size ∧ heap'.get r = heap.get r := by
  cases h with
  | lead | constant | openCopy => exact ⟨Nat.le_refl _, rfl⟩
  | refer _ hdeliver =>
      rcases same_of_deliver hdeliver with ⟨-, hsize, hsame⟩
      exact ⟨Nat.le_of_eq hsize.symm, hsame r hne⟩
  | openNew =>
      rw [Heap.size_alloc, Heap.get_alloc, if_neg (Nat.ne_of_lt hlt)]
      exact ⟨Nat.le_succ _, rfl⟩
  | copy _ _ _ hcopy => exact same_of_copy hcopy hlt
  | endCopy _ _ hcomplete | close _ _ _ hcomplete =>
      rcases same_of_complete hcomplete with ⟨hsize, hsame⟩
      exact ⟨Nat.le_of_eq hsize.symm, hsame r hne⟩
  | store _ hstore =>
      rcases same_of_storeField hstore with ⟨-, hsize, hsame⟩
      exact ⟨Nat.le_of_eq hsize.symm, hsame r hne⟩

/-- The own body is open in front of those from before, with these bodies in front of it. Its object
    was this when it was opened, and is as the stores of these fields leave it. -/
structure Filling (heap : Heap) (before : List Body) (own : Body) (i : Instance) (done : Record)
    (above : List Body) (c : Context) : Prop where
  bodies : ∃ seenField, c.bodies = above ++ { own with seenField } :: before
  lt_size : own.object < heap.size
  stored : done.StoredIn own.spec i.slots (heap.get own.object).slots
  same : heap.get own.object = { i with slots := (heap.get own.object).slots }

/-- The own body has given this record: what has been stored, and what is pending. -/
def HasGiven (heap : Heap) (before : List Body) (own : Body) (i : Instance) (record : Record)
    (c : Context) : Prop :=
  ∃ done above, Filling heap before own i done above c ∧
    record = done ++ pending (above.map Body.target) c.mode

section

variable {before above above' : List Body} {own : Body} {i : Instance} {done record : Record}
  {base : Nat} {cs : List Context}

theorem Filling.length_bodies (h : Filling heap before own i done above c) :
    c.bodies.length = above.length + (before.length + 1) := by
  rcases h.bodies with ⟨seenField, hbodies⟩
  rw [hbodies, List.length_append, List.length_cons]

/-- Without bodies in front of it, the own body is the innermost one. -/
theorem Filling.eq_nil_iff (h : Filling heap before own i done above c) :
    above = [] ↔ c.bodies.length = before.length + 1 := by
  rw [h.length_bodies, ← List.length_eq_zero_iff]
  omega

/-- Elsewhere the heap and the bodies may change. -/
theorem Filling.elsewhere (h : Filling heap before own i done above c)
    (hsame : heap.size ≤ heap'.size ∧ heap'.get own.object = heap.get own.object)
    (hbodies : ∃ seenField, c'.bodies = above' ++ { own with seenField } :: before) :
    Filling heap' before own i done above' c' := by
  refine ⟨hbodies, Nat.lt_of_lt_of_le h.lt_size hsame.1, ?_, ?_⟩
  · rw [hsame.2]
    exact h.stored
  · rw [hsame.2]
    exact h.same

/-- A field of the own body is stored. -/
theorem Filling.store (h : Filling heap before own i done [] c) {given : List Value}
    (hfield : FieldOf c.bodies field) (hgathered : field.gathered given = vs)
    (hstore : storeField heap c field start vs = .ok (heap', c')) :
    Filling heap' before own i (done ++ [(field, given)]) [] c' := by
  rcases h.bodies with ⟨seenField, hbodies⟩
  rw [List.nil_append] at hbodies
  have hspec : own.spec.find? field.name = some field :=
    hfield.2 { own with seenField } (by rw [hbodies]; rfl)
  unfold storeField at hstore
  rw [hbodies] at hstore
  rcases bind_eq_ok hstore with ⟨stored, hstored, hstore⟩
  cases hstore
  -- Nothing but the own object changes, and in it nothing but this field.
  rcases Heap.get_of_store (report_ok hstored) with ⟨hsize, j, hj, hget⟩
  rcases Instance.store_eq_ok hj with ⟨content, hcontent, rfl⟩
  have hown : heap'.get own.object = { heap.get own.object with
      slots := (heap.get own.object).slots.insert field.name content } := by
    rw [hget, if_pos ⟨rfl, h.lt_size⟩]
  refine ⟨⟨true, ?_⟩, hsize ▸ h.lt_size, ?_, ?_⟩
  · rw [bodies_afterField, hbodies]
    rfl
  · rw [hown]
    exact h.stored.snoc hspec (hgathered ▸ hcontent)
  · rw [hown, h.same]

/-- The bodies in front of the own one are no more and no fewer, and go where they went. -/
theorem exists_above (h : Filling heap before own i done above c) (hne : above ≠ [])
    (hbodies : c'.bodies = c.bodies ∨ c'.bodies = marked c.bodies) :
    ∃ above', above' ≠ [] ∧ above'.map Body.target = above.map Body.target ∧
      ∃ seenField, c'.bodies = above' ++ { own with seenField } :: before := by
  rcases h.bodies with ⟨seenField, hopen⟩
  rcases hbodies with heq | heq
  · exact ⟨above, hne, rfl, seenField, heq.trans hopen⟩
  · cases above with
    | nil => exact absurd rfl hne
    | cons body above =>
        refine ⟨{ body with seenField := true } :: above, List.cons_ne_nil _ _, rfl, seenField, ?_⟩
        rw [heq, hopen]
        rfl

/-- The own body is behind the innermost one if there are bodies in front of it. -/
theorem mem_tail_of_open (hopen : ∃ seenField, c.bodies = above ++ { own with seenField } :: before)
    (hne : above ≠ []) : own.object ∈ c.bodies.tail.map Body.object := by
  rcases hopen with ⟨seenField, hbodies⟩
  cases above with
  | nil => exact absurd rfl hne
  | cons body above =>
      rw [hbodies, List.cons_append, List.tail_cons, List.map_append]
      exact List.mem_append_right _ List.mem_cons_self

/-- The object of the innermost body is that of no other body. -/
theorem Sound.innermost_ne (h : Sound base heap (c :: cs))
    (hr : r ∈ c.bodies.tail.map Body.object ∨ r ∈ openRefs cs) :
    ∀ body ∈ c.bodies.head?, body.object ≠ r := by
  rintro body hbody rfl
  cases hbodies : c.bodies with
  | nil =>
      rw [hbodies] at hbody
      cases hbody
  | cons first rest =>
      rw [hbodies] at hbody hr
      cases hbody
      have hopen : openRefs (c :: cs) = c.mode.copy?.toList ++
          body.object :: (rest.map Body.object ++ openRefs cs) := by
        simp [openRefs, Context.openRefs, hbodies]
      have hnodup := h.nodup
      rw [hopen] at hnodup
      exact (List.nodup_cons.1 (List.nodup_append.1 hnodup).2.1).1 (List.mem_append.2 hr)

/-- With the own body in front, the mode says what is pending. -/
theorem HasGiven.innermost (h : HasGiven heap before own i record c)
    (hlength : c.bodies.length = before.length + 1) :
    ∃ done, Filling heap before own i done [] c ∧ record = done ++ c.mode.pending := by
  rcases h with ⟨done, above, h, rfl⟩
  have hnil := h.eq_nil_iff.2 hlength
  subst hnil
  exact ⟨done, h, rfl⟩

/-- With other bodies in front of it, the own one is not concerned by what happens in the innermost
    of these. -/
theorem HasGiven.behind (h : HasGiven heap before own i record c)
    (hlength : c.bodies.length ≠ before.length + 1) (hsound : Sound base heap' (c' :: cs))
    (hbodies : c'.bodies = c.bodies ∨ c'.bodies = marked c.bodies) (hsize : heap'.size = heap.size)
    (hsame : ∀ r, (∀ body ∈ c'.bodies.head?, body.object ≠ r) → heap'.get r = heap.get r) :
    HasGiven heap' before own i record c' := by
  rcases h with ⟨done, above, h, rfl⟩
  have habove : above ≠ [] := fun hnil => hlength (h.eq_nil_iff.1 hnil)
  rcases exists_above h habove hbodies with ⟨above', hne, htargets, hopen⟩
  have hown := hsame _ (hsound.innermost_ne (.inl (mem_tail_of_open hopen hne)))
  refine ⟨done, above', h.elsewhere ⟨Nat.le_of_eq hsize.symm, hown⟩ hopen, ?_⟩
  rw [htargets, pending_of_ne_nil (by simpa using habove) c'.mode c.mode]

/-- When a field is stored, nothing is pending. -/
theorem Filling.given_of_store (h : Filling heap before own i done [] c) {given : List Value}
    (hfield : FieldOf c.bodies field) (hgathered : field.gathered given = vs)
    (hstore : storeField heap c field start vs = .ok (heap', c')) :
    HasGiven heap' before own i (done ++ [(field, given)]) c' := by
  refine ⟨_, [], h.store hfield hgathered hstore, ?_⟩
  rw [(storeField_framed hstore).2.2]
  exact (List.append_nil _).symm

/-- An object is brought to its target. It is a value of the own body if that is the innermost one
    then, and the target is in a field. -/
theorem HasGiven.deliver (h : HasGiven heap before own i record (c.enter (.object target)))
    (hfits : target.Fits reg heap c.bodies) (hsound : Sound base heap' (c' :: cs))
    (hdeliver : deliver reg heap c target r = .ok (heap', c')) :
    ∃ part? record', HasGiven heap' before own i record' c' ∧ record.Grows part? record' ∧
      ((part? = some (.value (.object r)) ∧ c'.bodies.length = before.length + 1 ∧
          target.field? ≠ none) ∨
        (part? = none ∧ (c'.bodies.length ≠ before.length + 1 ∨ target.field? = none))) := by
  have hlength := length_of_targets (deliver_framed hdeliver).2.1
  -- The object is given to the own body only if no other body is open inside of it.
  by_cases hinner : c.bodies.length = before.length + 1
  · rcases h.innermost hinner with ⟨done, hwanted, rfl⟩
    have hown : Filling heap before own i done [] c :=
      hwanted.elsewhere ⟨Nat.le_refl _, rfl⟩ hwanted.bodies
    cases target with
    | root | template =>
        cases hdeliver
        exact ⟨none, _, ⟨done, [], hown.elsewhere ⟨Nat.le_refl _, rfl⟩ hown.bodies, rfl⟩, .nothing,
          .inr ⟨rfl, .inr rfl⟩⟩
    | field f start =>
        rcases bind_eq_ok hdeliver with ⟨_, -, hstore⟩
        have hgathered : f.gathered [.object r] = [.object r] := by
          refine FieldSpec.gathered_eq fun hobjects => ?_
          rw [hfits.2] at hobjects
          cases hobjects
        exact ⟨_, _, hown.given_of_store hfits.1 hgathered hstore, .value,
          .inl ⟨rfl, hlength.trans hinner, Option.some_ne_none _⟩⟩
    | element f start first earlier =>
        rcases bind_eq_ok hdeliver with ⟨_, -, heq⟩
        cases heq
        refine ⟨_, done ++ [(f, earlier.map .object ++ [.object r])],
          ⟨done, [], hown.elsewhere ⟨Nat.le_refl _, rfl⟩ hown.bodies, ?_⟩, .value,
          .inl ⟨rfl, hinner, Option.some_ne_none _⟩⟩
        change _ = done ++ [(f, (earlier ++ [r]).map Value.object)]
        rw [List.map_append]
        rfl
  · rcases same_of_deliver hdeliver with ⟨hbodies, hsize, hsame⟩
    exact ⟨none, record, h.behind hinner hsound hbodies hsize hsame, .nothing,
      .inr ⟨rfl, .inl fun heq => hinner (hlength.symm.trans heq)⟩⟩

/-- The heap may change elsewhere. -/
theorem HasGiven.keep (h : HasGiven heap before own i record c)
    (hsame : heap.size ≤ heap'.size ∧ heap'.get own.object = heap.get own.object) :
    HasGiven heap' before own i record c := by
  rcases h with ⟨done, above, h, rfl⟩
  exact ⟨done, above, h.elsewhere hsame h.bodies, rfl⟩

/-- What has been given depends on the open bodies and on what is pending. -/
theorem HasGiven.congr (h : HasGiven heap before own i record c) (hbodies : c'.bodies = c.bodies)
    (hmode : c'.mode.pending = c.mode.pending) : HasGiven heap before own i record c' := by
  rcases h with ⟨done, above, h, rfl⟩
  rcases h.bodies with ⟨seenField, hopen⟩
  exact ⟨done, above, h.elsewhere ⟨Nat.le_refl _, rfl⟩ ⟨seenField, hbodies.trans hopen⟩,
    congrArg (done ++ ·) (pending_congr hmode.symm)⟩

/-- A body opens in front, of the object that was wanted. -/
theorem HasGiven.openBody (h : HasGiven heap before own i record c) {body : Body}
    (hsame : heap.size ≤ heap'.size ∧ heap'.get own.object = heap.get own.object)
    (hmode : c.mode.target? = some body.target) :
    HasGiven heap' before own i record (c.openBody body) := by
  rcases h with ⟨done, above, h, rfl⟩
  rcases h.bodies with ⟨seenField, hopen⟩
  refine ⟨done, body :: above, h.elsewhere hsame ⟨seenField, ?_⟩, ?_⟩
  · rw [List.cons_append, ← hopen]
    rfl
  · rw [List.map_cons, pending_cons, pending_congr (pending_of_target? hmode)]

/-- The innermost body closes. It is not the own one. -/
theorem HasGiven.close (h : HasGiven heap before own i record c) {body : Body} {rest : List Body}
    (hbodies : c.bodies = body :: rest) (hne : rest.length ≠ before.length) (scopes : Scopes) :
    HasGiven heap before own i record
      (Context.enter { c with scopes, bodies := rest } (.object body.target)) := by
  rcases h with ⟨done, above, h, rfl⟩
  rcases h.bodies with ⟨seenField, hopen⟩
  rw [hbodies] at hopen
  cases above with
  | nil =>
      cases hopen
      exact absurd rfl hne
  | cons first above =>
      cases hopen
      refine ⟨done, above, h.elsewhere ⟨Nat.le_refl _, rfl⟩ ⟨seenField, rfl⟩, ?_⟩
      rw [List.map_cons, pending_cons]
      rfl

/-- The own body of the object that the first state waits for has given this record. Its document is
    the innermost one, or waits. -/
inductive State.Filled (a s : State) (own : Body) (i : Instance) (record : Record) : Prop where
  | here (hwaiting : s.waiting = a.waiting)
      (h : HasGiven s.heap a.document.context.bodies own i record s.document.context)
  | waits {upper w} (hwaiting : s.waiting = upper ++ w :: a.waiting)
      (h : HasGiven s.heap a.document.context.bodies own i record w.document.context)

/-- The step adds to the object what it adds to the record. -/
def State.Follows (env : Environment) (a s s' : State) (own : Body) (i : Instance)
    (record : Record) : Prop :=
  ∃ part? record', a.Filled s' own i record' ∧ record.Grows part? record' ∧ a.Adds env s s' part?

theorem not_begins (h : s.document.context.mode ≠ .item) : ¬ a.Begins s field := by
  rintro ⟨-, hitem, -⟩
  exact h hitem

theorem not_begins_of_target? (h : s.document.context.mode.target? = some target) :
    ¬ a.Begins s field := by
  refine not_begins fun hitem => ?_
  rw [hitem] at h
  cases h

theorem not_begins_of_punct {after : TokenStream} {character : Char}
    (hread : s.document.read s.document.tokens = .ok (token, after))
    (hl : token.lexeme = .punct character) : ¬ a.Begins s field := by
  rintro ⟨-, -, hread', hname, -⟩
  rw [hread] at hread'
  cases hread'
  rw [hl] at hname
  cases hname

theorem not_takes_of_target? (h : mode.target? = some target) : ¬ Takes token mode v :=
  fun htakes => htakes.not_canEnd (.inl (by rw [h]; exact Option.some_ne_none _))

/-- Where a step has more documents waiting than the own one, the body is not the innermost one. -/
theorem not_inner_of_waits {upper : List Waiting} {w : Waiting}
    (h : s.waiting = upper ++ w :: a.waiting) : ¬ a.Inner s := by
  rintro ⟨hwaiting, -⟩
  rw [h] at hwaiting
  simp at hwaiting
  omega

/-- The reading of the object is over when it is brought to its target, behind its body or where it
    has none. -/
theorem back_of_deliver (hwaiting : s'.waiting = a.waiting)
    (hlength : c.bodies.length = a.document.context.bodies.length)
    (hdeliver : deliver reg heap c target r = .ok (heap', s'.document.context)) : a.Back s' := by
  rcases deliver_framed hdeliver with ⟨-, htargets, hnone, -⟩
  exact ⟨congrArg List.length hwaiting, (length_of_targets htargets).trans hlength, hnone⟩

theorem back_of_complete (hwaiting : s'.waiting = a.waiting)
    (hlength : c.bodies.length = a.document.context.bodies.length)
    (hcomplete : complete reg heap c target r start = .ok (heap', s'.document.context)) :
    a.Back s' := by
  rcases bind_eq_ok hcomplete with ⟨named, hdeclare, hdeliver⟩
  rcases declare_eq_ok hdeclare with ⟨-, hnamed, -⟩
  exact back_of_deliver hwaiting ((congrArg List.length hnamed).trans hlength) hdeliver

/-- An object is brought to its target in the document of the own body. -/
theorem follows_of_deliver (hwaiting : s'.waiting = a.waiting)
    (h : HasGiven s.heap a.document.context.bodies own i record (c.enter (.object target)))
    (hfits : target.Fits reg s.heap c.bodies) (hsound : s'.Sound base)
    (hdeliver : deliver reg s.heap c target r = .ok (s'.heap, s'.document.context))
    (hends : s.Ends env s' r target) (hbegins : ∀ field, ¬ a.Begins s field) :
    a.Follows env s s' own i record := by
  rcases h.deliver hfits hsound.sound hdeliver with
    ⟨part?, record', h', hgrows, ⟨rfl, hlength, hfield⟩ | ⟨rfl, hnot⟩⟩
  · rcases Option.ne_none_iff_exists'.1 hfield with ⟨field, hfield⟩
    exact ⟨_, record', .here hwaiting h', hgrows,
      .value (.object ⟨congrArg List.length hwaiting, hlength⟩ hends hfield)⟩
  · refine ⟨_, record', .here hwaiting h', hgrows, adds_nothing hbegins ?_ ?_⟩
    · exact fun _ _ _ _ htakes => htakes.not_canEnd (canEnd_of_ends hends)
    · intro hinner _ hbehind
      exact (isBehindValue_of_ends hends).1 hbehind (hnot.resolve_left (absurd hinner.2))

/-- So is one that has been named first. -/
theorem follows_of_complete (hwaiting : s'.waiting = a.waiting)
    (h : HasGiven s.heap a.document.context.bodies own i record (c.enter (.object target)))
    (hfits : target.Fits reg s.heap c.bodies) (hsound : s'.Sound base)
    (hcomplete : complete reg s.heap c target r start = .ok (s'.heap, s'.document.context))
    (hends : s.Ends env s' r target) (hbegins : ∀ field, ¬ a.Begins s field) :
    a.Follows env s s' own i record := by
  rcases bind_eq_ok hcomplete with ⟨named, hdeclare, hdeliver⟩
  rcases declare_eq_ok hdeclare with ⟨-, hbodies, -⟩
  exact follows_of_deliver hwaiting (h.congr hbodies rfl) (hbodies ▸ hfits) hsound hdeliver hends
    hbegins

/-- A token that changes the mode only, in the document of the own body. -/
theorem follows_of_leads (hwaiting : s.waiting = a.waiting)
    (h : HasGiven s.heap a.document.context.bodies own i record s.document.context)
    {after : TokenStream} (hread : s.document.read s.document.tokens = .ok (token, after))
    (hlead : Leads env.registry s.document.context token s.document.context.mode mode)
    (tokens : TokenStream)
    (hs' : s' = { s with document :=
      { s.document with tokens, context := s.document.context.enter mode } })
    (hsound : s'.Sound base) : a.Follows env s s' own i record := by
  subst hs'
  -- Inside other bodies nothing is added to the record of the own one.
  by_cases hlength : s.document.context.bodies.length = a.document.context.bodies.length + 1
  · rcases h.innermost hlength with ⟨done, hown, rfl⟩
    have hinner : a.Inner s := ⟨congrArg List.length hwaiting, hlength⟩
    have h' : Filling s.heap a.document.context.bodies own i done []
        (s.document.context.enter mode) := hown.elsewhere ⟨Nat.le_refl _, rfl⟩ hown.bodies
    rcases pending_of_leads hlead with
      ⟨word, body, rest, field, hitem, hl, hconstants, htemplates, hbodies, hfield, rfl⟩ |
      ⟨field, vs, v, htakes, hpending, hpending'⟩ | ⟨hitem, htakes, hpending, hbehind⟩
    · refine ⟨_, done ++ [(field, [])], .here hwaiting ⟨done, [], h', rfl⟩, ?_,
        .field ⟨hinner, hitem, hread, hl, hconstants, htemplates, hbodies, hfield⟩⟩
      rw [hitem]
      change Record.Grows _ (done ++ []) _
      rw [List.append_nil]
      exact .field
    · refine ⟨_, done ++ [(field, vs ++ [v])], .here hwaiting ⟨done, [], h', ?_⟩, ?_,
        .value (.scalar hinner hread htakes)⟩
      · exact congrArg (done ++ ·) hpending'.symm
      · rw [hpending]
        exact .value
    · refine ⟨none, _, .here hwaiting ⟨done, [], h', ?_⟩, .nothing, adds_nothing ?_ ?_ ?_⟩
      · exact congrArg (done ++ ·) hpending.symm
      · rintro field ⟨-, hmode, hread', hl, hconstants, htemplates, -⟩
        rw [hread] at hread'
        cases hread'
        rcases hitem hmode _ hl with hword | hword
        · exact hconstants hword
        · exact htemplates hword
      · intro token' after' v hread'
        rw [hread] at hread'
        cases hread'
        exact htakes v
      · refine fun _ hend => hbehind hend fun hnil => ?_
        rw [hnil] at hlength
        cases hlength
  · have houter : ¬ a.Inner s := fun hinner => hlength hinner.2
    exact ⟨none, record, .here hwaiting (h.behind hlength hsound.sound (.inl rfl) rfl
      fun _ _ => rfl), .nothing, adds_nothing_outside houter houter⟩

/-- Where the values of a field are complete, the step begins no field and ends no object. -/
theorem adds_nothing_of_gathers {after : TokenStream}
    (hread : s.document.read s.document.tokens = .ok (token, after))
    (hgathers : Gathers token s.document.context.mode field start vs)
    (htakes : ∀ v, ¬ Takes token s.document.context.mode v) : a.Adds env s s' none := by
  have hnone : s.document.context.mode.target? = none := target?_of_gathers hgathers
  refine adds_nothing (fun _ => not_begins fun hitem => ?_) ?_ fun _ hend => ?_
  · rw [hitem] at hgathers
    cases hgathers
  · intro token' after' v hread'
    rw [hread] at hread'
    cases hread'
    exact htakes v
  · rcases hend with hne | hitem | ⟨root, hfinished⟩
    · exact absurd hnone hne
    · rw [hitem] at hgathers
      cases hgathers
    · rw [hfinished] at hgathers
      cases hgathers

/-- A field is over, in the document of the own body. -/
theorem follows_of_gathers (hwaiting : s.waiting = a.waiting)
    (h : HasGiven s.heap a.document.context.bodies own i record s.document.context)
    (hfits : s.document.context.Fits reg s.heap) {after tokens : TokenStream}
    (hread : s.document.read s.document.tokens = .ok (token, after))
    (hgathers : Gathers token s.document.context.mode field start vs)
    (hstore : storeField s.heap s.document.context field start vs = .ok (heap', c'))
    (hs' : s' = { s with heap := heap', document := { s.document with tokens, context := c' } })
    (hsound : s'.Sound base) (hstep : step env s = .ok (.inl s')) :
    a.Follows env s s' own i record := by
  subst hs'
  rcases storeField_framed hstore with ⟨-, htargets, hmode⟩
  by_cases hlength : s.document.context.bodies.length = a.document.context.bodies.length + 1
  · rcases h.innermost hlength with ⟨done, hown, rfl⟩
    have hinner : a.Inner s := ⟨congrArg List.length hwaiting, hlength⟩
    rcases pending_of_gathers hgathers hfits.mode with
      ⟨given, hfield, hgathered, ⟨earlier, v, htakes, hpending, rfl⟩ | ⟨hpending, htakes⟩⟩
    · have hgiven := hown.given_of_store hfield hgathered hstore
      rw [hpending]
      exact ⟨_, _, .here hwaiting hgiven, .value, .value (.scalar hinner hread htakes)⟩
    · have hgiven := hown.given_of_store hfield hgathered hstore
      rw [hpending]
      refine ⟨none, _, .here hwaiting hgiven, .nothing,
        adds_nothing_of_gathers hread hgathers fun v htaken => ?_⟩
      -- A list that takes a scalar goes on behind it.
      rcases htakes v htaken with ⟨_, _, _, _, hlist⟩
      have hnext := mode_of_listItem hlist hread htaken hstep
      rw [show Document.context _ = c' from rfl, hmode] at hnext
      cases hnext
  · rcases same_of_storeField hstore with ⟨rfl, hsize, hsame⟩
    exact ⟨none, record, .here hwaiting (h.behind hlength hsound.sound (.inr rfl) hsize hsame),
      .nothing, adds_nothing_outside (fun hinner => hlength hinner.2)
        fun hinner => hlength ((length_of_targets htargets).symm.trans hinner.2)⟩

/-- A turn that leaves what is pending, in the document of the own body. -/
theorem follows_of_pass (hwaiting : s'.waiting = a.waiting)
    (h : HasGiven s'.heap a.document.context.bodies own i record s'.document.context)
    (hitem : s.document.context.mode ≠ .item)
    (htakes : ∀ token v, ¬ Takes token s.document.context.mode v)
    (hbehind : ¬ s'.document.context.mode.IsBehindValue) : a.Follows env s s' own i record :=
  ⟨none, record, .here hwaiting h, .nothing, adds_nothing (fun _ => not_begins hitem)
    (fun token _ v _ => htakes token v) fun _ _ => hbehind⟩

/-- A turn in the document of the own body. -/
theorem follows_of_move (hwaiting : s.waiting = a.waiting)
    (h : HasGiven s.heap a.document.context.bodies own i record s.document.context)
    (hfits : s.document.context.Fits env.registry s.heap) (hsound : s'.Sound base)
    (hback : ¬ a.Back s') (hstep : step env s = .ok (.inl s')) {after tokens : TokenStream}
    (hread : s.document.read s.document.tokens = .ok (token, after))
    (hs' : s' = { s with heap := heap', document := { s.document with tokens, context := c' } })
    (hmove : Move env.registry s.document.source s.heap s.document.context token heap' c') :
    a.Follows env s s' own i record := by
  have hlt : own.object < s.heap.size := by
    rcases h with ⟨_, _, h, -⟩
    exact h.lt_size
  -- In front of an object that is wanted, its target says what is pending.
  have hwanted : ∀ {target}, s.document.context.mode.target? = some target →
      HasGiven s.heap a.document.context.bodies own i record
        (s.document.context.enter (.object target)) ∧
      target.Fits env.registry s.heap s.document.context.bodies ∧
      s.document.context.mode ≠ .item ∧
      ∀ token v, ¬ Takes token s.document.context.mode v := by
    intro target htarget
    refine ⟨h.congr rfl (pending_of_target? htarget).symm, hfits.mode.target_fits htarget, ?_,
      fun token v => not_takes_of_target? htarget⟩
    intro hitem
    rw [hitem] at htarget
    cases htarget
  cases hmove with
  | lead hlead =>
      exact follows_of_leads hwaiting h hread hlead tokens hs' hsound
  | constant hmode hl =>
      subst hs'
      refine follows_of_pass hwaiting (h.congr rfl ?_) (fun hitem => ?_) ?_ id
      · rw [hmode]
        rfl
      · rw [hmode] at hitem
        cases hitem
      · rw [hmode]
        rintro token v ⟨⟩
  | refer hrefers hdeliver =>
      rcases hwanted (target?_of_refers hrefers) with ⟨h', hfits, hitem, -⟩
      subst hs'
      exact follows_of_deliver hwaiting h' hfits hsound hdeliver
        (.turn hread (.reference hrefers hdeliver)) fun _ => not_begins hitem
  | openNew hopens hconcrete =>
      rcases hwanted (target?_of_opens hopens) with ⟨h', -, hitem, htakes⟩
      subst hs'
      refine follows_of_pass hwaiting (h'.openBody ⟨?_, ?_⟩ rfl) hitem htakes id
      · exact Nat.le_of_lt (by simp)
      · exact (Heap.get_alloc _ _ _).trans (if_neg (Nat.ne_of_lt hlt))
  | copy hmode hl hr hcopy =>
      rcases hwanted (by rw [hmode]; rfl) with ⟨h', -, hitem, htakes⟩
      subst hs'
      exact follows_of_pass hwaiting ((h'.keep (same_of_copy hcopy hlt)).congr rfl rfl) hitem
        htakes id
  | openCopy hmode hl hspec =>
      rcases hwanted (by rw [hmode]; rfl) with ⟨h', -, hitem, htakes⟩
      subst hs'
      exact follows_of_pass hwaiting (h'.openBody ⟨Nat.le_refl _, rfl⟩ rfl) hitem htakes id
  | endCopy hmode hl hcomplete =>
      rcases hwanted (by rw [hmode]; rfl) with ⟨h', hfits, hitem, -⟩
      subst hs'
      exact follows_of_complete hwaiting h' hfits hsound hcomplete
        (.turn hread (.copy hmode hl hcomplete)) fun _ => not_begins hitem
  | close hmode hl hbodies hcomplete =>
      have hopen := hfits.bodies
      rw [hbodies] at hopen
      subst hs'
      -- With the own body, the reading of the object would be over.
      have hinner := h.close hbodies (fun heq => hback (back_of_complete hwaiting heq hcomplete))
        s.document.context.scopes.close
      exact follows_of_complete hwaiting hinner hopen.2.2.1 hsound hcomplete
        (.turn hread (.body hmode hl hbodies hcomplete)) fun _ => not_begins_of_punct hread hl
  | store hgathers hstore =>
      exact follows_of_gathers hwaiting h hfits hread hgathers hstore hs' hsound hstep

/-- The own body is open in its document. -/
theorem HasGiven.mem_openRefs (h : HasGiven heap before own i record c) :
    own.object ∈ c.openRefs := by
  rcases h with ⟨done, above, h, -⟩
  rcases h.bodies with ⟨seenField, hbodies⟩
  rw [Context.openRefs, hbodies, List.map_append]
  exact List.mem_append_right _ (List.mem_append_right _ List.mem_cons_self)

theorem readScalar_of_takes (h : Takes token mode v) : ∃ type, readScalar type token = .ok v := by
  cases h with
  | first _ _ _ hv | next hv | item hv => exact ⟨_, hv⟩

/-- An expansion adds nothing. -/
theorem adds_nothing_of_dollar {after tokens : TokenStream}
    (hread : s.document.read s.document.tokens = .ok (token, after))
    (hl : token.lexeme = .punct '$') :
    a.Adds env s { s with document := { s.document with tokens } } none := by
  refine adds_nothing (fun _ => not_begins_of_punct hread hl) ?_
    fun _ hend hbehind => hbehind.not_canEnd hend
  intro token' after' v hread' htakes
  rw [hread] at hread'
  cases hread'
  rcases readScalar_of_takes htakes with ⟨type, hv⟩
  exact readScalar_ne_punct hv '$' hl

/-- In a document that the own one waits for, nothing happens to the own body. -/
theorem follows_of_waits {upper : List Waiting} {w : Waiting} (houter : ¬ a.Inner s)
    (hwaiting : s'.waiting = upper ++ w :: a.waiting)
    (h : HasGiven s.heap a.document.context.bodies own i record w.document.context)
    (hsound : s'.Sound base)
    (hsame : (∀ body ∈ s'.document.context.bodies.head?, body.object ≠ own.object) →
      s.heap.size ≤ s'.heap.size ∧ s'.heap.get own.object = s.heap.get own.object) :
    a.Follows env s s' own i record := by
  have hopen : own.object ∈ openRefs (s'.waiting.map fun w => w.document.context) := by
    refine List.mem_flatMap.2 ⟨w.document.context, List.mem_map.2 ⟨w, ?_, rfl⟩, h.mem_openRefs⟩
    rw [hwaiting]
    exact List.mem_append_right _ List.mem_cons_self
  exact ⟨none, record, .waits hwaiting (h.keep (hsame (hsound.sound.innermost_ne (.inr hopen)))),
    .nothing, adds_nothing_outside houter (not_inner_of_waits hwaiting)⟩

/-- An include begins, in the document of the own body or in one that it waits for. -/
theorem follows_of_enter {after : TokenStream} {path : String} {file : Path} {included : Document}
    (h : a.Filled s own i record)
    (hmode : s.document.context.mode = .includingPath start path target)
    (hs' : s' = s.entered after path start target file included) (hsound : s'.Sound base) :
    a.Follows env s s' own i record := by
  let w : Waiting := ⟨{ s.document with tokens := after }, start, target, file⟩
  have htarget : s.document.context.mode.target? = some target := by
    rw [hmode]
    rfl
  subst hs'
  -- While a file is read the own body waits, and one more file may be on the way back to it.
  cases h with
  | here hwaiting h =>
      have hstack : w :: s.waiting = [] ++ w :: a.waiting := congrArg (List.cons w) hwaiting
      refine ⟨none, record, .waits hstack h, .nothing,
        adds_nothing (fun _ => not_begins_of_target? htarget) ?_ ?_⟩
      · exact fun _ _ _ _ => not_takes_of_target? htarget
      · exact fun hinner => absurd hinner (not_inner_of_waits hstack)
  | @waits upper outer hwaiting h =>
      have hstack : w :: s.waiting = (w :: upper) ++ outer :: a.waiting :=
        congrArg (List.cons w) hwaiting
      exact follows_of_waits (not_inner_of_waits hwaiting) hstack h hsound
        fun _ => ⟨Nat.le_refl _, rfl⟩

/-- An include ends in the document of the own body. -/
theorem follows_of_return {w : Waiting} {root : Ref}
    (h : HasGiven s.heap a.document.context.bodies own i record w.document.context)
    (hwaiting : s.waiting = w :: a.waiting) (hmode : s.document.context.mode = .finished root)
    (hsound : s.Sound base) (htyped : s.Typed env.registry base)
    (hcomplete : complete env.registry s.heap w.document.context w.target root w.start =
      .ok (heap', c'))
    (hs' : s' = { s with
      heap := heap', document := { w.document with context := c' }, waiting := a.waiting })
    (hsound' : s'.Sound base) (hends : s.Ends env s' root w.target) :
    a.Follows env s s' own i record := by
  have hw : w ∈ s.waiting := by
    rw [hwaiting]
    exact List.mem_cons_self
  rcases hsound.waiting w hw with ⟨path, hincluding⟩
  have htarget : w.document.context.mode.target? = some w.target := by
    rw [hincluding]
    rfl
  have hfits := (htyped.contexts w.document.context (List.mem_cons_of_mem _
    (List.mem_map.2 ⟨w, hw, rfl⟩))).mode
  -- The document behind the include wants the object at the place where the include was.
  have hwanted : HasGiven s.heap a.document.context.bodies own i record
      (w.document.context.enter (.object w.target)) :=
    h.congr rfl (pending_of_target? htarget).symm
  subst hs'
  refine follows_of_complete rfl hwanted (hfits.target_fits htarget) hsound' hcomplete hends
    fun _ => not_begins fun hitem => ?_
  rw [hmode] at hitem
  cases hitem

/-- A step adds to the object what it adds to the record, if it does not end the reading. -/
theorem State.Filled.step (h : a.Filled s own i record) (hwithin : a.Within target s)
    (hsound : s.Sound base) (htyped : s.Typed env.registry base)
    (hstep : step env s = .ok (.inl s')) (hback : ¬ a.Back s') :
    a.Follows env s s' own i record := by
  have hsound' := (step_sound hsound hstep).1
  cases stepped_of_step hstep with
  | expand hread hl hexpand =>
      rcases expand_eq_ok hexpand with ⟨tokens, rfl⟩
      refine ⟨none, record, ?_, .nothing, adds_nothing_of_dollar hread hl⟩
      cases h with
      | here hwaiting h => exact .here hwaiting h
      | waits hwaiting h => exact .waits hwaiting h
  | move hread htokens hmove =>
      cases h with
      | here hwaiting h =>
          exact follows_of_move hwaiting h (htyped.contexts _ List.mem_cons_self) hsound' hback
            hstep hread rfl hmove
      | waits hwaiting h =>
          have hlt := (hsound.sound.opened own.object (List.mem_flatMap.2 ⟨_,
            List.mem_cons_of_mem _ (List.mem_map.2 ⟨_, by
              rw [hwaiting]
              exact List.mem_append_right _ List.mem_cons_self, rfl⟩), h.mem_openRefs⟩)).2
          exact follows_of_waits (not_inner_of_waits hwaiting) hwaiting h hsound'
            fun hne => hmove.same hlt hne
  | enter hread hmode henter =>
      rcases enter_eq_ok_iff.1 henter with ⟨file, included, hopen, rfl⟩
      exact follows_of_enter h hmode rfl hsound'
  | leave hmode hrest hresume =>
      have hends := State.Ends.document hmode hrest hresume
      rcases resume_eq_ok hresume with ⟨heap', context, hcomplete, rfl⟩
      cases h with
      | here hwaiting =>
          exact absurd hmode ((hwithin.reads (congrArg List.length hwaiting)).ne_finished _)
      | @waits upper outer hwaiting h =>
          rw [hwaiting] at hrest
          cases upper with
          | nil =>
              cases hrest
              exact follows_of_return h hwaiting hmode hsound htyped hcomplete rfl hsound' hends
          -- The document that goes on is not the own one.
          | cons first upper =>
              cases hrest
              refine follows_of_waits (not_inner_of_waits hwaiting) rfl h hsound' fun hne => ?_
              rcases same_of_complete hcomplete with ⟨hsize, hsame⟩
              exact ⟨Nat.le_of_eq hsize.symm, hsame _ hne⟩

end

end

end GraphText.Reader

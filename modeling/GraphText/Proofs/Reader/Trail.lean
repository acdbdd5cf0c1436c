import GraphText.Proofs.Reader.Grammar

/-!
# The trail of a reader

What a reader knows by name when it comes to a reference can be told from the
words in front of the reference, whatever the registered types are and whatever
the words are taken for. A name becomes known only where a body closes, and it
is the name that stands in front of the brace that opened the body. So the words
leave a trail, of the names in front of the bodies that are open, and of those
of the bodies that have been closed, and a reader knows no name that has not
been closed.

The trail is the same for a text that means something else than its writer had
in mind. That matters because a field may be declared by one kind and hold
another, and its words are then read as what they were not. But nothing can be
made of a brace, and nothing but a reference or a name of something can be made
of the word `USE`; so in every text that is read, a name behind `USE` is one
that has been closed. The text must not copy, include or expand anything, since
by these a name may become known that no brace stands behind.

## Main definitions

* `Trail`, `Trail.next`: what the words read so far leave.
* `Trail.Settled`: behind `USE` stand names that have been closed.
* `Lexeme.IsPlain`: texts that do not copy, include or expand.
* `Mode.Behind`: where the reader can be behind a word.
* `Trail.Covers`: the reader knows no more than the trail.

## Theorems

* `opened_of_brace`, `closed_of_brace`, `behind_of_use`: what can be made of a word.
* `Trail.Covers.take`, `Trail.Covers.keep`: one turn.
* `settled_of_readText`: in a text that is read, names behind `USE` have been closed.
-/

namespace GraphText

/-- The text of a quoted string. -/
def Lexeme.quoted? : Lexeme → Option String
  | quoted text => some text
  | _ => none

/-- Whether a word goes on with a text that copies, includes and expands nothing. -/
def Lexeme.Plain (last l : Lexeme) : Prop :=
  l ≠ .punct '$' ∧ l ≠ .punct '<' ∧ (last = .name "CLONE" → ∀ s, l ≠ .quoted s)

/-- Whether some words, behind this one, copy, include and expand nothing. -/
def Lexeme.IsPlain : Lexeme → List Lexeme → Prop
  | _, [] => True
  | last, l :: ls => Plain last l ∧ IsPlain l ls

namespace Reader

/-- What is remembered of some words: the last of them, the names in front of the braces that are
    open, the innermost first, and the names of the bodies that have been closed. -/
structure Trail where
  last : Lexeme := .eof
  opened : List (Option String) := []
  closed : List String := []

namespace Trail

/-- The trail behind one more word. -/
def next (t : Trail) (l : Lexeme) : Trail :=
  if l = .punct '\x7b' then { t with last := l, opened := t.last.quoted? :: t.opened }
  else if l = .punct '\x7d' then
    { last := l, opened := t.opened.tail, closed := t.opened.head?.join.toList ++ t.closed }
  else { t with last := l }

/-- Names behind `USE` are those of bodies that have been closed. -/
def Settled : Trail → List Lexeme → Prop
  | _, [] => True
  | t, l :: ls =>
    (t.last = .name "USE" → ∀ name, l = .quoted name → name ∈ t.closed) ∧ (t.next l).Settled ls

theorem next_open (t : Trail) :
    t.next (.punct '\x7b') = ⟨.punct '\x7b', t.last.quoted? :: t.opened, t.closed⟩ := rfl

theorem next_close (t : Trail) :
    t.next (.punct '\x7d') =
      ⟨.punct '\x7d', t.opened.tail, t.opened.head?.join.toList ++ t.closed⟩ := rfl

theorem next_other {t : Trail} {l : Lexeme} (hopen : l ≠ .punct '\x7b')
    (hclose : l ≠ .punct '\x7d') : t.next l = { t with last := l } := by
  rw [next, if_neg hopen, if_neg hclose]

end Trail

/-- Where the reader can be behind a word of a plain text. -/
def Mode.Behind (last : Lexeme) : Mode → Prop
  | used _ | fieldColon _ | constantColon _ => True
  | named _ _ name _ => last = .quoted name
  | cloning _ _ => last = .name "CLONE"
  | cloningFrom .. | cloned .. | including .. | includingPath .. => False
  | _ => last ≠ .name "USE"

/-- The object is there, and if it has a name, it is this one. -/
def NamedAs (heap : Heap) (r : Ref) (name : Option String) : Prop :=
  r < heap.size ∧ ∀ n, (heap.get r).name = some n → name = some n

/-- The reader is behind the last word of the trail, its bodies are those that are open there, and
    it knows no other names than those that have been closed. -/
structure Trail.Covers (t : Trail) (heap : Heap) (c : Context) : Prop where
  mode : c.mode.Behind t.last
  bodies : List.Forall₂ (NamedAs heap) (c.bodies.map Body.object) t.opened
  names : ∀ name r, c.scopes.Names name r → name ∈ t.closed

section

variable {reg : Registry} {source : Path} {heap heap' : Heap} {c c' : Context} {q : Position}
  {token : Token} {l last : Lexeme} {target : Target} {r : Ref} {start : Position} {mode : Mode}
  {field : FieldSpec} {turned : Turn}

theorem NamedAs.keep {name : Option String} (h : NamedAs heap r name)
    (hkeeps : heap.KeepsHeads heap') : NamedAs heap' r name := by
  rcases h with ⟨hr, hname⟩
  refine ⟨Nat.lt_of_lt_of_le hr hkeeps.types.1, fun n hn => hname n ?_⟩
  rw [hkeeps.names r hr] at hn
  exact hn

/-- The modes behind an object, a field or a block. -/
theorem Mode.behind_of_rank (hrank : mode.rank = 2) (hlast : last ≠ .name "USE") :
    mode.Behind last := by
  cases mode <;> first | exact hlast | cases hrank

/-- Behind `USE` something certain is looked for. -/
theorem Mode.rank_of_use (h : mode.Behind (.name "USE")) : mode.rank = 0 := by
  cases mode <;> first | rfl | exact absurd rfl h | cases h

theorem objects_afterField (c : Context) :
    c.afterField.bodies.map Body.object = c.bodies.map Body.object := by
  unfold Context.afterField
  cases c.bodies <;> rfl

/-- Storing values in the innermost body changes no name and leaves all bodies open. -/
theorem storeField_eq_ok {vs : List Value}
    (h : storeField heap c field start vs = .ok (heap', c')) :
    heap.KeepsHeads heap' ∧ c'.scopes = c.scopes ∧
      c'.bodies.map Body.object = c.bodies.map Body.object := by
  unfold storeField at h
  split at h
  · cases h
    exact ⟨.refl heap, rfl, objects_afterField c⟩
  · rcases bind_eq_ok h with ⟨stored, hstored, h⟩
    cases h
    exact ⟨Heap.keepsHeads_of_store (report_ok hstored), rfl, objects_afterField c⟩

/-- Nor does bringing an object to its target. -/
theorem deliver_eq_ok (h : deliver reg heap c target r = .ok (heap', c')) :
    heap.KeepsHeads heap' ∧ c'.scopes = c.scopes ∧
      c'.bodies.map Body.object = c.bodies.map Body.object := by
  unfold deliver at h
  split at h
  · cases h
    exact ⟨.refl heap, rfl, rfl⟩
  · cases h
    exact ⟨.refl heap, rfl, rfl⟩
  · rcases bind_eq_ok h with ⟨_, -, h⟩
    exact storeField_eq_ok h
  · rcases bind_eq_ok h with ⟨_, -, h⟩
    cases h
    exact ⟨.refl heap, rfl, rfl⟩

/-- Neither the word `USE` nor a character that is a word by itself is a scalar. -/
theorem readScalar_ne_ok {type : ScalarType} {v : Value}
    (hl : l = .name "USE" ∨ ∃ character, l = .punct character) :
    readScalar type ⟨l, q⟩ ≠ .ok v := by
  intro h
  rcases hl with rfl | ⟨character, rfl⟩
  · cases type <;> cases h
  · cases type <;> cases h

theorem takeScalar_ne_ok {type : ScalarType} {more : Nat} {before : List Value}
    (hl : l = .name "USE" ∨ ∃ character, l = .punct character) :
    takeScalar heap c field type start more before ⟨l, q⟩ ≠ .ok turned := by
  intro h
  rcases bind_eq_ok h with ⟨v, hv, -⟩
  exact readScalar_ne_ok hl hv

theorem keepWith_ne_take {result : Result (Heap × Context)} :
    keepWith result ≠ .ok (.take heap' c') := by
  intro h
  rcases keepWith_ok h with ⟨_, _, heq, -⟩
  cases heq

/-- Where a value is looked for, such a word is not taken unless it is a bracket. -/
theorem not_value_of_take (hl : l = .name "USE" ∨ ∃ character, l = .punct character)
    (hopen : l ≠ .punct '[') (hclose : l ≠ .punct ']')
    (h : turn reg source heap c ⟨l, q⟩ = .ok (.take heap' c')) :
    (∀ field, c.mode ≠ .fieldValue field) ∧
      (∀ field type start more before, c.mode ≠ .scalar field type start more before) ∧
      ∀ field type start before, c.mode ≠ .listItem field type start before := by
  unfold turn at h
  refine ⟨fun field hm => ?_, fun field type start more before hm => ?_,
    fun field type start before hm => ?_⟩
  · simp only [hm] at h
    unfold beginValue at h
    split at h
    · cases h
    · simp only at h
      rw [if_neg hopen] at h
      cases h
    · split at h
      · simp only at h
        cases h
      · split at h
        · exact keepWith_ne_take h
        · exact takeScalar_ne_ok hl h
  · simp only [hm] at h
    exact takeScalar_ne_ok hl h
  · simp only [hm, if_neg hclose] at h
    rcases bind_eq_ok h with ⟨v, hv, -⟩
    exact readScalar_ne_ok hl hv

/-- The word `USE` is taken for a reference, or for the name of a field or of a constant. -/
theorem behind_of_use (h : turn reg source heap c ⟨.name "USE", q⟩ = .ok (.take heap' c')) :
    c'.mode.Behind (.name "USE") := by
  rcases not_value_of_take (.inl rfl) nofun nofun h with ⟨hfield, hscalar, hlist⟩
  unfold turn at h
  cases hm : c.mode <;> simp only [hm] at h
  case object =>
    cases h
    trivial
  case item =>
    have hname : beginField heap c "USE" ⟨.name "USE", q⟩ = .ok (.take heap' c') := h
    unfold beginField at hname
    split at hname
    · cases hname
    · split at hname
      · cases hname
      · cases hname
        trivial
  case constant =>
    cases h
    trivial
  case named =>
    rcases bind_eq_ok h with ⟨_, -, h⟩
    exact absurd h keepWith_ne_take
  case cloned => exact absurd h keepWith_ne_take
  case fieldValue => exact absurd hm (hfield _)
  case scalar => exact absurd hm (hscalar _ _ _ _ _)
  case listItem => exact absurd hm (hlist _ _ _ _)
  all_goals cases h

/-- A brace is taken where it opens the body of a new object or of a copy. -/
theorem opened_of_brace (h : turn reg source heap c ⟨.punct '\x7b', q⟩ = .ok (.take heap' c')) :
    (∃ spec start name target, Opens c.mode spec start name target ∧
      heap' = heap.alloc (newObject source spec start name) ∧
      c' = c.openBody { object := heap.size, spec, start, target }) ∨
    ∃ copy start target, c.mode = .cloned copy start target := by
  rcases not_value_of_take (.inr ⟨_, rfl⟩) (by decide) (by decide) h with ⟨hfield, hscalar, hlist⟩
  have hopen : ∀ {spec start name target}, Opens c.mode spec start name target →
      openObject source heap c spec start name target = .ok (.take heap' c') →
      ∃ spec start name target, Opens c.mode spec start name target ∧
        heap' = heap.alloc (newObject source spec start name) ∧
        c' = c.openBody { object := heap.size, spec, start, target } := by
    intro spec start name target hopens h
    rcases openObject_eq_ok_iff.1 h with ⟨-, htake⟩
    cases htake
    exact ⟨spec, start, name, target, hopens, rfl, rfl⟩
  unfold turn at h
  cases hm : c.mode <;> simp only [hm] at h
  case typed => exact .inl (hm ▸ hopen (hm ▸ .unnamed) h)
  case named => exact .inl (hm ▸ hopen (hm ▸ .named) h)
  case cloned copy start target => exact .inr ⟨copy, start, target, rfl⟩
  case fieldValue => exact absurd hm (hfield _)
  case scalar => exact absurd hm (hscalar _ _ _ _ _)
  case listItem => exact absurd hm (hlist _ _ _ _)
  all_goals cases h

/-- A brace is taken where it closes a body. -/
theorem closed_of_brace (h : turn reg source heap c ⟨.punct '\x7d', q⟩ = .ok (.take heap' c')) :
    closeBody reg heap c = .ok (.take heap' c') := by
  rcases not_value_of_take (.inr ⟨_, rfl⟩) (by decide) (by decide) h with ⟨hfield, hscalar, hlist⟩
  unfold turn at h
  cases hm : c.mode <;> simp only [hm] at h
  case item => exact h
  case named =>
    rcases bind_eq_ok h with ⟨_, -, h⟩
    exact absurd h keepWith_ne_take
  case cloned => exact absurd h keepWith_ne_take
  case fieldValue => exact absurd hm (hfield _)
  case scalar => exact absurd hm (hscalar _ _ _ _ _)
  case listItem => exact absurd hm (hlist _ _ _ _)
  all_goals cases h

/-- In front of a body, nothing but its brace opens one. -/
theorem same_of_opens {spec : ObjectSpec} {name : String}
    (hopens : Opens c.mode spec start name target)
    (h : turn reg source heap c token = .ok turned) :
    (token.lexeme = .punct '\x7b' ∧ ∃ heap' c', turned = .take heap' c') ∨
      ∀ heap' c', turned = .take heap' c' ∨ turned = .keep heap' c' →
        c'.bodies.map Body.object = c.bodies.map Body.object := by
  have hopen : ∀ {name}, openObject source heap c spec start name target = .ok turned →
      ∃ heap' c', turned = .take heap' c' := by
    intro name h
    exact ⟨_, _, (openObject_eq_ok_iff.1 h).2⟩
  unfold turn at h
  generalize hm : c.mode = mode at hopens h
  cases hopens with
  | unnamed =>
      simp only at h
      split at h
      · cases h
        refine .inr fun heap' c' heq => ?_
        rcases heq with heq | heq <;> cases heq
        rfl
      next hl => exact .inl ⟨hl, hopen h⟩
      · cases h
  | named =>
      simp only at h
      split at h
      next hl => exact .inl ⟨hl, hopen h⟩
      · rcases bind_eq_ok h with ⟨_, -, h⟩
        rcases takeWith_ok h with ⟨_, _, rfl, hdeliver⟩
        refine .inr fun heap' c' heq => ?_
        rcases heq with heq | heq <;> cases heq
        exact (deliver_eq_ok hdeliver).2.2
      · rcases bind_eq_ok h with ⟨_, -, h⟩
        rcases keepWith_ok h with ⟨_, _, rfl, hdeliver⟩
        refine .inr fun heap' c' heq => ?_
        rcases heq with heq | heq <;> cases heq
        exact (deliver_eq_ok hdeliver).2.2

/-- A turn that keeps its word, or takes another one than a brace, opens and closes no body and
    makes no name known. -/
theorem same_of_turn (hbehind : c.mode.Behind last)
    (h : turn reg source heap c token = .ok turned)
    (hturned : turned = .take heap' c' ∧ token.lexeme ≠ .punct '\x7b' ∧
      token.lexeme ≠ .punct '\x7d' ∨ turned = .keep heap' c') :
    heap.KeepsHeads heap' ∧ c'.bodies.map Body.object = c.bodies.map Body.object ∧
      ∀ name r, c'.scopes.Names name r → c.scopes.Names name r := by
  have hmove : Move reg source heap c token heap' c' := by
    have hexplained := turn_cases h
    rcases hturned with ⟨rfl, -⟩ | rfl
    · exact hexplained
    · exact hexplained
  cases hmove with
  | lead => exact ⟨.refl heap, rfl, fun _ _ hname => hname⟩
  | constant => exact ⟨.refl heap, rfl, fun _ _ hname => Scopes.names_of_defineConstant hname⟩
  | refer _ hdeliver =>
      rcases deliver_eq_ok hdeliver with ⟨hkeeps, hscopes, hbodies⟩
      exact ⟨hkeeps, hbodies, fun _ _ hname => hscopes ▸ hname⟩
  | openNew hopens =>
      rcases same_of_opens hopens h with ⟨hl, _, _, htake⟩ | hsame
      · rcases hturned with ⟨-, hopen, -⟩ | rfl
        · exact absurd hl hopen
        · cases htake
      · have hlength := congrArg List.length (hsame _ _ (hturned.imp_left And.left))
        simp [Context.openBody] at hlength
  | copy hmode | openCopy hmode | endCopy hmode =>
      rw [hmode] at hbehind
      exact hbehind.elim
  | close hmode hl _ hcomplete =>
      rcases hturned with ⟨-, -, hclose⟩ | rfl
      · exact absurd hl hclose
      · -- What is kept leads to a lower mode, and the one behind an object is higher.
        have hrank : c'.mode.rank < c.mode.rank := turn_ranked h
        rw [rank_of_complete hcomplete, hmode] at hrank
        exact absurd hrank (by decide)
  | store _ hstore =>
      rcases storeField_eq_ok hstore with ⟨hkeeps, hscopes, hbodies⟩
      exact ⟨hkeeps, hbodies, fun _ _ hname => hscopes ▸ hname⟩

/-- Behind a word that is taken. -/
theorem behind_of_take (hbehind : c.mode.Behind last) (hplain : Lexeme.Plain last l)
    (h : turn reg source heap c ⟨l, q⟩ = .ok (.take heap' c')) : c'.mode.Behind l := by
  by_cases huse : l = .name "USE"
  · subst huse
    exact behind_of_use h
  · -- Any other word will do for the modes it leads to, but for those of a name and of a copy.
    have hmove : Move reg source heap c ⟨l, q⟩ heap' c' := turn_cases h
    cases hmove with
    | lead hlead =>
        generalize hm : c.mode = mode at hlead hbehind
        cases hlead with
        | «include» hl => exact absurd hl hplain.2.1
        | clone hl => exact hl
        | use => trivial
        | objectName hl => exact hl
        | template hl => exact absurd hl (hplain.2.2 hbehind _)
        | path => exact hbehind.elim
        | field => trivial
        | constantName => trivial
        | _ => exact huse
    | constant => exact huse
    | refer _ hdeliver => exact Mode.behind_of_rank (rank_of_deliver hdeliver) huse
    | openNew => exact huse
    | copy hmode =>
        rw [hmode] at hbehind
        exact hbehind.elim
    | openCopy => exact huse
    | endCopy hmode =>
        rw [hmode] at hbehind
        exact hbehind.elim
    | close _ _ _ hcomplete => exact Mode.behind_of_rank (rank_of_complete hcomplete) huse
    | store _ hstore => exact Mode.behind_of_rank (rank_of_storeField hstore) huse

/-- Behind a turn that keeps its word. -/
theorem behind_of_keep (hbehind : c.mode.Behind last)
    (h : turn reg source heap c token = .ok (.keep heap' c')) : c'.mode.Behind last := by
  have hrank : c'.mode.rank < c.mode.rank := turn_ranked h
  -- Where something certain is looked for no word is kept.
  have huse : last ≠ .name "USE" := by
    rintro rfl
    rw [Mode.rank_of_use hbehind] at hrank
    exact Nat.not_lt_zero _ hrank
  have hmove : Move reg source heap c token heap' c' := turn_cases h
  cases hmove with
  | lead hlead =>
      generalize hm : c.mode = mode at hlead hrank
      cases hlead <;> first | exact huse | exact absurd hrank (Nat.not_lt_zero _) | trivial
  | constant => exact huse
  | refer _ hdeliver => exact Mode.behind_of_rank (rank_of_deliver hdeliver) huse
  | openNew => exact huse
  | copy hmode | endCopy hmode =>
      rw [hmode] at hbehind
      exact hbehind.elim
  | openCopy => exact huse
  | close _ _ _ hcomplete => exact Mode.behind_of_rank (rank_of_complete hcomplete) huse
  | store _ hstore => exact Mode.behind_of_rank (rank_of_storeField hstore) huse

namespace Trail.Covers

variable {t : Trail}

/-- A name behind `USE` is looked up. -/
theorem closed (h : t.Covers heap c) {name : String}
    (hturn : turn reg source heap c ⟨.quoted name, q⟩ = .ok (.take heap' c'))
    (hlast : t.last = .name "USE") : name ∈ t.closed := by
  have hbehind := h.mode
  rw [hlast] at hbehind
  unfold turn at hturn
  cases hm : c.mode <;> simp only [hm] at hturn hbehind
  case used =>
    rcases bind_eq_ok hturn with ⟨r, hr, -⟩
    exact h.names name r (Scopes.names_of_resolve? (resolve_eq_ok hr))
  case fieldColon => cases hturn
  case constantColon => cases hturn
  case named => cases hbehind
  case cloning => simp [Mode.Behind] at hbehind
  all_goals first | exact absurd rfl hbehind | exact hbehind.elim

/-- The body of a new object is open under the name in front of its brace. -/
theorem openNew (h : t.Covers heap c) {spec : ObjectSpec} {name : String}
    (hopens : Opens c.mode spec start name target) :
    (t.next (.punct '\x7b')).Covers (heap.alloc (newObject source spec start name))
      (c.openBody { object := heap.size, spec, start, target }) := by
  have hkeeps := Heap.keepsHeads_alloc heap (newObject source spec start name)
  have hnew : NamedAs (heap.alloc (newObject source spec start name)) heap.size
      t.last.quoted? := by
    refine ⟨by simp, fun n hn => ?_⟩
    rw [Heap.get_alloc, if_pos rfl] at hn
    have hbehind := h.mode
    generalize c.mode = mode at hopens hbehind
    cases hopens with
    | unnamed => cases hn
    | named =>
        rw [show t.last = .quoted name from hbehind]
        by_cases hempty : name = ""
        · simp [newObject, Instance.withName, hempty] at hn
        · simpa [newObject, Instance.withName, hempty, Lexeme.quoted?] using hn
  rw [next_open]
  exact ⟨nofun, .cons hnew (h.bodies.imp fun _ _ hnamed => hnamed.keep hkeeps),
    fun name r hname => h.names name r (Scopes.names_of_open hname)⟩

/-- The object of a body that closes becomes known under that name, if it does at all. -/
theorem close (h : t.Covers heap c)
    (hclose : closeBody reg heap c = .ok (.take heap' c')) :
    (t.next (.punct '\x7d')).Covers heap' c' := by
  have hlast : (Lexeme.punct '\x7d') ≠ .name "USE" := nofun
  have hbodies := h.bodies
  rw [next_close]
  unfold closeBody at hclose
  split at hclose
  next hnone =>
    cases hclose
    rw [hnone] at hbodies
    refine ⟨hlast, ?_, fun name r hname => List.mem_append_right _ (h.names name r hname)⟩
    cases hopened : t.opened with
    | nil =>
        show List.Forall₂ _ (c.bodies.map Body.object) _
        rw [hnone]
        exact .nil
    | cons name opened =>
        rw [hopened] at hbodies
        cases hbodies
  next body rest hsome =>
    rcases takeWith_ok hclose with ⟨_, _, heq, hcomplete⟩
    cases heq
    rcases bind_eq_ok hcomplete with ⟨named, hnamed, hdeliver⟩
    rcases declare_eq_ok hnamed with ⟨-, hsame, hnames⟩
    rcases deliver_eq_ok hdeliver with ⟨hkeeps, hscopes, hobjects⟩
    rw [hsome, List.map_cons] at hbodies
    -- The innermost of the open names is that of the body that closes.
    generalize t.opened = opened at hbodies
    cases hbodies with
    | cons hbody hrest =>
      refine ⟨Mode.behind_of_rank (rank_of_complete hcomplete) hlast, ?_, fun name r hname => ?_⟩
      · rw [hobjects, hsame]
        exact hrest.imp fun _ _ hnamed => hnamed.keep hkeeps
      · rw [hscopes] at hname
        rcases hnames name r hname with hold | ⟨-, hnew⟩
        · exact List.mem_append_right _ (h.names name r (Scopes.names_of_close hold))
        · refine List.mem_append_left _ ?_
          rw [hbody.2 name hnew]
          exact List.mem_singleton_self name

/-- One word that is taken. -/
theorem take (h : t.Covers heap c) (hplain : Lexeme.Plain t.last l)
    (hturn : turn reg source heap c ⟨l, q⟩ = .ok (.take heap' c')) :
    (t.next l).Covers heap' c' := by
  by_cases hopen : l = .punct '\x7b'
  · subst hopen
    rcases opened_of_brace hturn with ⟨spec, start, name, target, hopens, rfl, rfl⟩ |
      ⟨copy, start, target, hmode⟩
    · exact h.openNew hopens
    · have hbehind := h.mode
      rw [hmode] at hbehind
      exact hbehind.elim
  by_cases hclose : l = .punct '\x7d'
  · subst hclose
    exact h.close (closed_of_brace hturn)
  rcases same_of_turn h.mode hturn (.inl ⟨rfl, hopen, hclose⟩) with ⟨hkeeps, hbodies, hnames⟩
  rw [next_other hopen hclose]
  refine ⟨behind_of_take h.mode hplain hturn, ?_,
    fun name r hname => h.names name r (hnames name r hname)⟩
  rw [hbodies]
  exact h.bodies.imp fun _ _ hnamed => hnamed.keep hkeeps

/-- One word that is kept. -/
theorem keep (h : t.Covers heap c) (hturn : turn reg source heap c token = .ok (.keep heap' c')) :
    t.Covers heap' c' := by
  rcases same_of_turn h.mode hturn (.inr rfl) with ⟨hkeeps, hbodies, hnames⟩
  refine ⟨behind_of_keep h.mode hturn, ?_, fun name r hname => h.names name r (hnames name r hname)⟩
  rw [hbodies]
  exact h.bodies.imp fun _ _ hnamed => hnamed.keep hkeeps

end Trail.Covers

end

end Reader

end GraphText

import GraphText.Proofs.Reader.Steps

/-!
# Commas and closing characters

Everything in braces or brackets is a row of items. There are two kinds of modes
that have to do with a row: those in front of an item, where the row may be
closed, and those behind an item, where a comma may stand. Behind an item the
comma is taken and what closes the row is kept, and both lead to the same mode in
front of an item. In every other mode neither a comma nor a closing character
means anything. The reader fails at any of them, or it was only waiting for
something that does not belong to the item before, and then it makes the same of
all of them.

A reader comes in front of an item only by taking the character that opens the
row, or a comma, or by keeping what closes the row. So the word that was taken
last tells whether the row has just begun. The modes in front of an item are
those of rank 1, since they are what a kept closing character leads to.

Words that are not known are looked at together with commas and closing
characters. Nothing begins with them either, and nothing is closed by them.

## Main definitions

* `Lexeme.IsForeign`: words that belong to no item.
* `Mode.closer`: what closes the row.
* `Mode.row?`: the mode in front of the next item.
* `Passive`: the same is made of all words that belong to no item.

## Theorems

* `turn_of_row?`: a turn behind an item.
* `passive_turn`: a turn in a mode that has to do with no row.
* `turn_of_unknown`: a word that is not known is not taken.
* `opener_of_take`: the words that lead to the front of an item.
* `run_of_row`: only an item or what closes the row may stand there.
-/

namespace GraphText

/-- The word belongs to no item: it may stand behind one, or nowhere. -/
def Lexeme.IsForeign : Lexeme → Prop
  | punct c => c = ',' ∨ c = '\x7d' ∨ c = ']'
  | unknown _ => True
  | _ => False

theorem Lexeme.forall_foreign {P : Lexeme → Prop} (hcomma : P (punct ','))
    (hbrace : P (punct '\x7d')) (hbracket : P (punct ']')) (hunknown : ∀ c, P (unknown c)) :
    ∀ l, l.IsForeign → P l := by
  intro l hl
  cases l with
  | punct c =>
      rcases hl with rfl | rfl | rfl
      · exact hcomma
      · exact hbrace
      · exact hbracket
  | unknown c => exact hunknown c
  | name | quoted | number | eof => exact hl.elim

namespace Reader

/-- What closes the row, in a mode in front of an item. -/
def Mode.closer : Mode → Char
  | item => '\x7d'
  | _ => ']'

/-- The mode in front of the next item, in a mode behind an item. -/
def Mode.row? : Mode → Option Mode
  | itemEnd => some item
  | constantEnd => some constant
  | templateEnd => some template
  | listEnd field type start before => some (listItem field type start before)
  | elementEnd field start before => some (element field start before)
  | _ => none

section

variable {env : Environment} {reg : Registry} {source : Path} {heap heap' : Heap} {c c' : Context}
  {token : Token} {p : Position} {row : Mode} {s : State} {x : Char}

theorem Mode.rank_of_row? {mode : Mode} (h : mode.row? = some row) : row.rank = 1 := by
  cases mode <;> cases h <;> rfl

/-- Behind an item of a row. -/
theorem turn_of_row? (h : c.mode.row? = some row) :
    turn reg source heap c token = takeSeparator heap c row.closer row token := by
  unfold turn
  cases hm : c.mode <;> rw [hm] at h <;> cases h <;> rfl

/-- The same is done with every word that belongs to no item: all are faults, or all are kept, and
    not in front of an item. -/
def Passive (result : Lexeme → Result Turn) : Prop :=
  (∀ l, l.IsForeign → ∃ fault, result l = .error fault) ∨
    ∃ heap c, c.mode.rank ≠ 1 ∧ ∀ l, l.IsForeign → result l = .ok (.keep heap c)

theorem passive_of_keep {result : Lexeme → Result Turn} (kept : Result (Heap × Context))
    (hrank : ∀ heap c, kept = .ok (heap, c) → c.mode.rank = 2)
    (h : ∀ l, l.IsForeign → result l = keepWith kept) : Passive result := by
  cases kept with
  | error fault => exact .inl fun l hl => ⟨fault, h l hl⟩
  | ok kept =>
      refine .inr ⟨kept.1, kept.2, ?_, h⟩
      rw [hrank kept.1 kept.2 rfl]
      nofun

/-- No such word is a scalar. -/
theorem readScalar_foreign (type : ScalarType) (p : Position) :
    ∀ l : Lexeme, l.IsForeign → ∃ fault, readScalar type ⟨l, p⟩ = .error fault := by
  cases type with
  | string | bool | int | uint | float =>
      exact Lexeme.forall_foreign ⟨_, rfl⟩ ⟨_, rfl⟩ ⟨_, rfl⟩ fun _ => ⟨_, rfl⟩

theorem passive_takeScalar (heap : Heap) (c : Context) (field : FieldSpec) (type : ScalarType)
    (start : Position) (more : Nat) (before : List Value) (p : Position) :
    Passive fun l => takeScalar heap c field type start more before ⟨l, p⟩ := by
  refine .inl fun l hl => ?_
  rcases readScalar_foreign type p l hl with ⟨fault, hfault⟩
  exact ⟨fault, by simp only [takeScalar, hfault]; rfl⟩

theorem passive_beginValue (heap : Heap) (c : Context) (field : FieldSpec) (p : Position) :
    Passive fun l => beginValue heap c field ⟨l, p⟩ := by
  unfold beginValue
  cases field.kind.valueType with
  | object => exact .inr ⟨heap, c.enter (.object (.field field p)), nofun, fun _ _ => rfl⟩
  | objectList => exact .inl (Lexeme.forall_foreign ⟨_, rfl⟩ ⟨_, rfl⟩ ⟨_, rfl⟩ fun _ => ⟨_, rfl⟩)
  | scalar type =>
      cases field.kind.isList with
      | true => exact .inl (Lexeme.forall_foreign ⟨_, rfl⟩ ⟨_, rfl⟩ ⟨_, rfl⟩ fun _ => ⟨_, rfl⟩)
      | false =>
          cases field.kind.arity with
          | zero =>
              exact passive_of_keep (storeField heap c field p [])
                (fun _ _ hstore => rank_of_storeField hstore) fun _ _ => rfl
          | succ more => exact passive_takeScalar heap c field type p more [] p

/-- In a mode that has to do with no row, the reader makes the same of each of these words. -/
theorem passive_turn (reg : Registry) (source : Path) (heap : Heap) (p : Position)
    (hrow : c.mode.row? = none) (hrank : c.mode.rank ≠ 1) :
    Passive fun l => turn reg source heap c ⟨l, p⟩ := by
  unfold turn
  cases hm : c.mode <;> rw [hm] at hrow hrank
  case named spec start name target =>
    refine passive_of_keep
      (resolveTyped reg heap c spec name start >>= deliver reg heap c target) ?_ ?_
    · intro heap' c' hkept
      rcases bind_eq_ok hkept with ⟨r, -, hdeliver⟩
      exact rank_of_deliver hdeliver
    · dsimp only
      cases resolveTyped reg heap c spec name start with
      | error fault | ok r => exact Lexeme.forall_foreign rfl rfl rfl fun _ => rfl
  case cloned copy start target =>
    exact passive_of_keep (complete reg heap c target copy start)
      (fun _ _ hcomplete => rank_of_complete hcomplete)
      (Lexeme.forall_foreign rfl rfl rfl fun _ => rfl)
  case fieldValue field => exact passive_beginValue heap c field p
  case scalar field type start more before =>
    exact passive_takeScalar heap c field type start more before p
  case itemEnd | constantEnd | templateEnd | listEnd | elementEnd => cases hrow
  case item | constant | template | listItem | element => exact absurd rfl hrank
  -- Something certain is looked for.
  all_goals exact .inl (Lexeme.forall_foreign ⟨_, rfl⟩ ⟨_, rfl⟩ ⟨_, rfl⟩ fun _ => ⟨_, rfl⟩)

/-- In front of an item the reader fails at a word that belongs to no item and does not close the
    row, at once or as soon as it looks for an object. -/
theorem turn_of_row (hrank : c.mode.rank = 1) {l : Lexeme} (hl : l.IsForeign)
    (hclose : l ≠ .punct c.mode.closer) :
    (∃ fault, turn reg source heap c ⟨l, p⟩ = .error fault) ∨
      ∃ target, turn reg source heap c ⟨l, p⟩ = .ok (.keep heap (c.enter (.object target))) := by
  unfold turn
  cases hm : c.mode <;> rw [hm] at hrank hclose
  case item =>
    cases l with
    | punct x =>
        rcases hl with rfl | rfl | rfl
        · exact .inl ⟨_, rfl⟩
        · exact absurd rfl hclose
        · exact .inl ⟨_, rfl⟩
    | unknown x => exact .inl ⟨_, rfl⟩
    | name | quoted | number | eof => exact hl.elim
  case constant =>
    cases l with
    | punct x =>
        rcases hl with rfl | rfl | rfl
        · exact .inl ⟨_, rfl⟩
        · exact .inl ⟨_, rfl⟩
        · exact absurd rfl hclose
    | unknown x => exact .inl ⟨_, rfl⟩
    | name | quoted | number | eof => exact hl.elim
  case listItem field type start before =>
    have hne : l ≠ .punct ']' := hclose
    simp only [if_neg hne]
    rcases readScalar_foreign type p l hl with ⟨fault, hfault⟩
    exact .inl ⟨fault, by rw [hfault]; rfl⟩
  -- Here an object is looked for, and the word is kept for that.
  case template =>
    have hne : l ≠ .punct ']' := hclose
    simp only [if_neg hne]
    exact .inr ⟨_, rfl⟩
  case element =>
    have hne : l ≠ .punct ']' := hclose
    simp only [if_neg hne]
    exact .inr ⟨_, rfl⟩
  all_goals cases hrank

/-- A word that is not known at all is not taken. -/
theorem turn_of_unknown {x : Char} {t : Turn}
    (h : turn reg source heap c ⟨.unknown x, p⟩ = .ok t) : ∃ heap' c', t = .keep heap' c' := by
  have hforeign : (Lexeme.unknown x).IsForeign := trivial
  by_cases hrank : c.mode.rank = 1
  · rcases turn_of_row hrank hforeign nofun with ⟨fault, hturn⟩ | ⟨target, hturn⟩
    · cases hturn.symm.trans h
    · cases hturn.symm.trans h
      exact ⟨_, _, rfl⟩
  · cases hrow : c.mode.row? with
    | none =>
        rcases passive_turn reg source heap p hrow hrank with hfault | ⟨heap', c', -, hkeep⟩
        · rcases hfault _ hforeign with ⟨fault, hturn⟩
          cases hturn.symm.trans h
        · cases (hkeep _ hforeign).symm.trans h
          exact ⟨_, _, rfl⟩
    | some row =>
        rw [turn_of_row? hrow] at h
        cases h

/-- No object begins with a word that belongs to no item. -/
theorem turn_of_object {target : Target} (hmode : c.mode = .object target) :
    ∀ l : Lexeme, l.IsForeign → ∃ fault, turn reg source heap c ⟨l, p⟩ = .error fault := by
  unfold turn
  rw [hmode]
  exact Lexeme.forall_foreign ⟨_, rfl⟩ ⟨_, rfl⟩ ⟨_, rfl⟩ fun _ => ⟨_, rfl⟩

/-- Nothing is read if a word stands there that neither begins an item nor closes the row. -/
theorem run_of_row {after : TokenStream} {l : Lexeme}
    (hread : s.document.read s.document.tokens = .ok (⟨l, p⟩, after))
    (hrank : s.document.context.mode.rank = 1) (hforeign : l.IsForeign)
    (hclose : l ≠ .punct s.document.context.mode.closer) : ∃ e, run env s = .error e := by
  have hl : l ≠ .punct '$' := by
    rintro rfl
    rcases hforeign with h | h | h <;> cases h
  rcases turn_of_row hrank hforeign hclose with ⟨fault, hturn⟩ | ⟨target, hturn⟩
  · exact ⟨_, run_of_error (step_of_fault hread hl hturn)⟩
  · let next : State := { s with document := { s.document with
      context := s.document.context.enter (.object target) } }
    have hstep : step env s = .ok (.inl next) := step_of_turn hread hl hturn
    rcases turn_of_object (c := next.document.context) rfl l hforeign with ⟨fault, hfault⟩
    have hnext : step env next = .error ⟨fault.1, some (next.document.locate fault.2)⟩ :=
      step_of_fault hread hl hfault
    exact ⟨_, (run_of_step hstep).trans (run_of_error hnext)⟩

theorem eq_of_takeCharacter {mode : Mode} {t : Turn}
    (h : takeCharacter heap c x mode token = .ok t) : token.lexeme = .punct x := by
  unfold takeCharacter at h
  split at h
  next hl => exact hl
  · cases h

theorem comma_of_takeSeparator {mode : Mode}
    (h : takeSeparator heap c x mode token = .ok (.take heap' c')) :
    token.lexeme = .punct ',' := by
  unfold takeSeparator at h
  split at h
  next hl => exact hl
  · split at h <;> cases h

/-- A list is opened by its bracket. -/
theorem bracket_of_beginValue {field : FieldSpec}
    (h : beginValue heap c field token = .ok (.take heap' c'))
    (hlist : field.kind.valueType = .objectList ∨ field.kind.isList = true)
    (hobject : field.kind.valueType ≠ .object) : token.lexeme = .punct '[' := by
  unfold beginValue at h
  split at h
  next htype => exact absurd htype hobject
  · split at h
    next hl => exact hl
    · cases h
  next type htype =>
    rw [htype] at hlist
    rw [if_pos (hlist.resolve_left nofun)] at h
    split at h
    next hl => exact hl
    · cases h

/-- A body is opened by its brace. -/
theorem brace_of_opens {spec : ObjectSpec} {start : Position} {name : String} {target : Target}
    (hopens : Opens c.mode spec start name target)
    (h : turn reg source heap c token = .ok (.take heap' c')) (hitem : c'.mode = .item) :
    token.lexeme = .punct '\x7b' := by
  generalize hm : c.mode = mode at hopens
  unfold turn at h
  cases hopens with
  | unnamed =>
      simp only [hm] at h
      split at h
      · cases h
        cases hitem
      next hl => exact hl
      · cases h
  | named =>
      simp only [hm] at h
      split at h
      next hl => exact hl
      · rcases bind_eq_ok h with ⟨r, -, h⟩
        rcases takeWith_ok h with ⟨_, _, heq, hdeliver⟩
        cases heq
        -- Behind an object no item is looked for.
        have hrank := rank_of_deliver hdeliver
        rw [hitem] at hrank
        cases hrank
      · rcases bind_eq_ok h with ⟨r, -, h⟩
        rcases keepWith_ok h with ⟨_, _, heq, -⟩
        cases heq

/-- The front of an item is reached by taking a character that opens a row, or a comma. -/
theorem opener_of_take (h : turn reg source heap c token = .ok (.take heap' c'))
    (hrank : c'.mode.rank = 1) :
    token.lexeme = .punct '\x7b' ∨ token.lexeme = .punct '[' ∨ token.lexeme = .punct ',' := by
  have hmove : Move reg source heap c token heap' c' := turn_cases h
  cases hmove with
  | lead hleads =>
      generalize hm : c.mode = mode at hleads
      cases hleads
      case bareConstants hl => exact .inr (.inl hl)
      case itemNext | constantNext | templateNext | listNext | elementNext =>
        rw [turn_of_row? (by rw [hm]; rfl)] at h
        exact .inr (.inr (comma_of_takeSeparator h))
      case constantsOpen | templatesOpen =>
        unfold turn at h
        simp only [hm] at h
        exact .inr (.inl (eq_of_takeCharacter h))
      case valueObjects htype =>
        unfold turn at h
        simp only [hm] at h
        exact .inr (.inl (bracket_of_beginValue h (.inl htype) (by rw [htype]; nofun)))
      case valueList htype hlist =>
        unfold turn at h
        simp only [hm] at h
        exact .inr (.inl (bracket_of_beginValue h (.inr hlist) (by rw [htype]; nofun)))
      all_goals cases hrank
  | openNew hopens =>
      exact .inl (brace_of_opens hopens h rfl)
  | openCopy _ hl => exact .inl hl
  | constant | copy => cases hrank
  | refer _ hdeliver => cases (rank_of_deliver hdeliver).symm.trans hrank
  | endCopy _ _ hcomplete | close _ _ _ hcomplete =>
      cases (rank_of_complete hcomplete).symm.trans hrank
  | store _ hstore => cases (rank_of_storeField hstore).symm.trans hrank

end

end Reader

end GraphText

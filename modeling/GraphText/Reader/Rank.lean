import GraphText.Reader.Descent
import GraphText.Reader.Step

/-!
# Ranks of states

What goes down in every step of a reader. A step that takes a token leaves less
of the document; one that expands a constant or opens a file adds something, but
takes a token before; one that ends a document takes it off the stack. The
remaining steps keep the token, and go to a mode of lower rank. Both stacks are
bounded, by the limits of the options, so nothing can go down forever.

How much is left of a document is asked layer by layer, and a token is taken
from one layer. The end of a document takes nothing, so it matters that no turn
takes it.

## Main definitions

* `Mode.rank`, `State.rank`: the ranks.
* `Environment.RankLess`: the order in which they go down.

## Theorems

* `Environment.rankLess_wellFounded`: nothing goes down forever.
* `turn_ranked`: the end is not taken, and a kept token goes with a lower mode.
* `step_rank`: every step goes down.
-/

namespace GraphText.Reader

/-- Modes in which a token may be kept have a higher rank than the modes they lead to. -/
def Mode.rank : Mode → Nat
  | named .. | cloned .. | fieldValue .. => 3
  | itemEnd | constantEnd | templateEnd | listEnd .. | elementEnd .. | finished .. => 2
  | item | constant | template | listItem .. | element .. => 1
  | _ => 0

theorem mapError_ok {ε δ α : Type} {f : ε → δ} {x : Except ε α} {a : α}
    (h : x.mapError f = .ok a) : x = .ok a := by
  cases x with
  | error e => cases h
  | ok b => cases h; rfl

theorem located_ok {α : Type} {doc : Document} {result : Result α} {a : α}
    (h : doc.located result = .ok a) : result = .ok a :=
  mapError_ok h

theorem rank_of_storeField {heap heap' : Heap} {c c' : Context} {field : FieldSpec} {p : Position}
    {vs : List Value} (h : storeField heap c field p vs = .ok (heap', c')) : c'.mode.rank = 2 := by
  unfold storeField at h
  split at h
  · cases h; rfl
  · simp only [bind, Except.bind] at h
    split at h
    · simp at h
    · cases h; rfl

theorem rank_of_deliver {reg : Registry} {heap heap' : Heap} {c c' : Context} {target : Target}
    {r : Ref} (h : deliver reg heap c target r = .ok (heap', c')) : c'.mode.rank = 2 := by
  unfold deliver at h
  split at h
  · cases h; rfl
  · cases h; rfl
  · simp only [bind, Except.bind] at h
    split at h
    · simp at h
    · exact rank_of_storeField h
  · simp only [bind, Except.bind] at h
    split at h
    · simp at h
    · cases h; rfl

theorem rank_of_complete {reg : Registry} {heap heap' : Heap} {c c' : Context} {target : Target}
    {r : Ref} {p : Position} (h : complete reg heap c target r p = .ok (heap', c')) :
    c'.mode.rank = 2 := by
  simp only [complete, bind, Except.bind] at h
  split at h
  · simp at h
  · exact rank_of_deliver h

theorem takeWith_ok {result : Result (Heap × Context)} {t : Turn} (h : takeWith result = .ok t) :
    ∃ heap c, t = .take heap c ∧ result = .ok (heap, c) := by
  cases result with
  | error e => simp [takeWith, Except.map] at h
  | ok r => exact ⟨r.1, r.2, by simpa [takeWith, Except.map] using h.symm, rfl⟩

theorem keepWith_ok {result : Result (Heap × Context)} {t : Turn} (h : keepWith result = .ok t) :
    ∃ heap c, t = .keep heap c ∧ result = .ok (heap, c) := by
  cases result with
  | error e => simp [keepWith, Except.map] at h
  | ok r => exact ⟨r.1, r.2, by simpa [keepWith, Except.map] using h.symm, rfl⟩

/-- What every turn keeps to: the end of the document, if that is what is looked at, is never taken,
    and a token is kept only on the way to a mode of lower rank. -/
def Turn.Ranked (rank : Nat) (isEnd : Prop) : Turn → Prop
  | take _ _ => ¬ isEnd
  | keep _ c => c.mode.rank < rank
  | enter _ _ _ => ¬ isEnd
  | leave _ => True

theorem ranked_takeWith {result : Result (Heap × Context)} {t : Turn} {rank : Nat} {isEnd : Prop}
    (hend : ¬ isEnd) (h : takeWith result = .ok t) : t.Ranked rank isEnd := by
  obtain ⟨_, _, rfl, _⟩ := takeWith_ok h
  exact hend

theorem ranked_keepWith {result : Result (Heap × Context)} {t : Turn} {rank : Nat} {isEnd : Prop}
    (hrank : ∀ heap c, result = .ok (heap, c) → c.mode.rank < rank) (h : keepWith result = .ok t) :
    t.Ranked rank isEnd := by
  obtain ⟨heap, c, rfl, hr⟩ := keepWith_ok h
  exact hrank heap c hr

section

variable {reg : Registry} {source : Path} {heap : Heap} {c : Context} {token : Token} {t : Turn}
  {rank : Nat}

theorem ranked_takeCharacter {character : Char} {mode : Mode}
    (h : takeCharacter heap c character mode token = .ok t) :
    t.Ranked rank (token.lexeme = .eof) := by
  unfold takeCharacter at h
  split at h
  next hl => cases h; simp [Turn.Ranked, hl]
  · simp [unexpected] at h

theorem ranked_takeSeparator {close : Char} {mode : Mode} (hmode : mode.rank < rank)
    (h : takeSeparator heap c close mode token = .ok t) : t.Ranked rank (token.lexeme = .eof) := by
  unfold takeSeparator at h
  split at h
  next hl => cases h; simp [Turn.Ranked, hl]
  · split at h
    · cases h; exact hmode
    · simp [unexpected] at h

theorem readScalar_ne_eof {type : ScalarType} {v : Value} (h : readScalar type token = .ok v) :
    token.lexeme ≠ .eof := by
  intro hl
  cases type <;> simp [readScalar, hl, Lexeme.literal?] at h

theorem ranked_takeScalar {field : FieldSpec} {type : ScalarType} {start : Position} {more : Nat}
    {before : List Value}
    (h : takeScalar heap c field type start more before token = .ok t) :
    t.Ranked rank (token.lexeme = .eof) := by
  obtain ⟨v, hv, h⟩ := bind_eq_ok h
  have hend := readScalar_ne_eof hv
  cases more with
  | zero => exact ranked_takeWith hend h
  | succ n => cases h; exact hend

theorem ranked_beginObject {target : Target}
    (h : beginObject reg heap c target token = .ok t) : t.Ranked rank (token.lexeme = .eof) := by
  unfold beginObject at h
  split at h
  next hl => cases h; simp [Turn.Ranked, hl]
  next hl =>
    obtain ⟨r, _, h⟩ := bind_eq_ok h
    exact ranked_takeWith (by simp [hl]) h
  next hl =>
    split at h
    · cases h; simp [Turn.Ranked, hl]
    · split at h
      · cases h; simp [Turn.Ranked, hl]
      · split at h
        · cases h; simp [Turn.Ranked, hl]
        · exact ranked_takeWith (by simp [hl]) h
        · simp at h
  · simp at h
  · simp at h

theorem ranked_openObject {spec : ObjectSpec} {start : Position} {name : String} {target : Target}
    {isEnd : Prop} (hend : ¬ isEnd) (h : openObject source heap c spec start name target = .ok t) :
    t.Ranked rank isEnd := by
  unfold openObject at h
  split at h
  · simp at h
  · cases h; exact hend

theorem ranked_closeBody {isEnd : Prop} (hend : ¬ isEnd) (h : closeBody reg heap c = .ok t) :
    t.Ranked rank isEnd := by
  unfold closeBody at h
  split at h
  · cases h; exact hend
  · exact ranked_takeWith hend h

theorem ranked_makeCopy {start templateStart : Position} {template name : String}
    {target : Target} {isEnd : Prop} (hend : ¬ isEnd)
    (h : makeCopy reg source heap c start template templateStart name target = .ok t) :
    t.Ranked rank isEnd := by
  unfold makeCopy at h
  split at h
  · simp at h
  · obtain ⟨_, _, h⟩ := bind_eq_ok h
    cases h
    exact hend

theorem ranked_beginBlock {block : Block} {mode : Mode} {isEnd : Prop} (hend : ¬ isEnd)
    (h : beginBlock heap c block mode token = .ok t) : t.Ranked rank isEnd := by
  unfold beginBlock at h
  split at h
  · simp at h
  · cases h; exact hend

theorem ranked_beginField {name : String} {isEnd : Prop} (hend : ¬ isEnd)
    (h : beginField heap c name token = .ok t) : t.Ranked rank isEnd := by
  unfold beginField at h
  split at h
  · simp at h
  · split at h
    · simp at h
    · cases h; exact hend

theorem ranked_beginItem (h : beginItem reg heap c token = .ok t) :
    t.Ranked rank (token.lexeme = .eof) := by
  unfold beginItem at h
  split at h
  next hl => exact ranked_closeBody (by simp [hl]) h
  next hl => exact ranked_beginBlock (by simp [hl]) h
  next hl =>
    repeat' split at h
    · exact ranked_beginBlock (by simp [hl]) h
    · exact ranked_beginBlock (by simp [hl]) h
    · exact ranked_beginField (by simp [hl]) h
  · simp [unexpected] at h

theorem ranked_beginValue {field : FieldSpec} (hrank : 2 < rank)
    (h : beginValue heap c field token = .ok t) : t.Ranked rank (token.lexeme = .eof) := by
  unfold beginValue at h
  split at h
  · cases h; exact Nat.lt_of_le_of_lt (Nat.zero_le 2) hrank
  · split at h
    next hl => cases h; simp [Turn.Ranked, hl]
    · simp [unexpected] at h
  · split at h
    · split at h
      next hl => cases h; simp [Turn.Ranked, hl]
      · simp [unexpected] at h
    · split at h
      · exact ranked_keepWith (fun _ _ hr => by rw [rank_of_storeField hr]; exact hrank) h
      · exact ranked_takeScalar h

/-- Every turn keeps to the ranks. -/
theorem turn_ranked (h : turn reg source heap c token = .ok t) :
    t.Ranked c.mode.rank (token.lexeme = .eof) := by
  -- One case for each mode, as `turn` has them.
  unfold turn at h
  cases hm : c.mode <;> simp only [hm] at h
  case object => exact ranked_beginObject h
  case used =>
    split at h
    next hl =>
      obtain ⟨_, _, h⟩ := bind_eq_ok h
      exact ranked_takeWith (by simp [hl]) h
    · simp [unexpected] at h
  case typed =>
    split at h
    next hl => cases h; simp [Turn.Ranked, hl]
    next hl => exact ranked_openObject (by simp [hl]) h
    · simp [unexpected] at h
  case named =>
    split at h
    next hl => exact ranked_openObject (by simp [hl]) h
    next hl =>
      obtain ⟨_, _, h⟩ := bind_eq_ok h
      exact ranked_takeWith (by simp [hl]) h
    · obtain ⟨_, _, h⟩ := bind_eq_ok h
      exact ranked_keepWith (fun _ _ hr => by rw [rank_of_deliver hr]; exact (by decide : 2 < 3)) h
  case cloning =>
    split at h
    next hl => cases h; simp [Turn.Ranked, hl]
    · simp [unexpected] at h
  case cloningFrom =>
    split at h
    next hl => exact ranked_makeCopy (by simp [hl]) h
    · simp [unexpected] at h
  case cloned =>
    split at h
    next hl =>
      obtain ⟨_, _, h⟩ := bind_eq_ok h
      cases h
      simp [Turn.Ranked, hl]
    · exact ranked_keepWith (fun _ _ hr => by rw [rank_of_complete hr]; exact (by decide : 2 < 3)) h
  case including =>
    split at h
    next hl =>
      split at h
      · simp at h
      · cases h; simp [Turn.Ranked, hl]
    · simp [unexpected] at h
  case includingPath =>
    split at h
    next hl => cases h; simp [Turn.Ranked, hl]
    · simp [unexpected] at h
  case item => exact ranked_beginItem h
  case itemEnd => exact ranked_takeSeparator (by decide) h
  case constantsColon => exact ranked_takeCharacter h
  case constantsOpen => exact ranked_takeCharacter h
  case constant =>
    split at h
    next hl => cases h; simp [Turn.Ranked, hl]
    next hl => cases h; simp [Turn.Ranked, hl]
    · simp [unexpected] at h
  case constantColon => exact ranked_takeCharacter h
  case constantValue =>
    split at h
    next hl => cases h; simp [Turn.Ranked, hl]
    · simp [unexpected] at h
  case constantEnd => exact ranked_takeSeparator (by decide) h
  case templatesColon => exact ranked_takeCharacter h
  case templatesOpen => exact ranked_takeCharacter h
  case template =>
    split at h
    next hl => cases h; simp [Turn.Ranked, hl]
    · cases h; exact (by decide : (0 : Nat) < 1)
  case templateEnd => exact ranked_takeSeparator (by decide) h
  case fieldColon => exact ranked_takeCharacter h
  case fieldValue => exact ranked_beginValue (by simp [Mode.rank]) h
  case scalar => exact ranked_takeScalar h
  case listItem =>
    split at h
    next hl => exact ranked_takeWith (by simp [hl]) h
    · obtain ⟨_, hv, h⟩ := bind_eq_ok h
      cases h
      exact readScalar_ne_eof hv
  case listEnd => exact ranked_takeSeparator (by simp [Mode.rank]) h
  case element =>
    split at h
    next hl => exact ranked_takeWith (by simp [hl]) h
    · cases h; exact (by decide : (0 : Nat) < 1)
  case elementEnd => exact ranked_takeSeparator (by simp [Mode.rank]) h
  case finished =>
    split at h
    · cases h; trivial
    · simp [unexpected] at h

end

/-- How much is left of the documents, the innermost first, and the rank of the mode. -/
abbrev Rank := List (List Nat) × Nat

/-- The order in which the rank of a state goes down. -/
def Environment.RankLess (env : Environment) : Rank → Rank → Prop :=
  Prod.Lex
    (Descends (Descends (· < ·) (env.options.maxSubstitutionDepth + 1))
      (env.options.maxIncludeDepth + 1))
    (· < ·)

theorem Environment.rankLess_wellFounded (env : Environment) : WellFounded env.RankLess :=
  ⟨fun rank => Prod.lexAccessible
    ((Descends.wellFounded (Descends.wellFounded Nat.lt_wfRel.wf)).apply rank.1)
    (fun n => Nat.lt_wfRel.wf.apply n) rank.2⟩

/-- The rank of a state. -/
def State.rank (s : State) : Rank :=
  ((s.document :: s.waiting.map Waiting.document).map fun doc => doc.tokens.remaining,
    s.document.context.mode.rank)

theorem descends_of_shrinks {bound : Nat} {before after : List Nat}
    (h : TokenStream.Shrinks before after) : Descends (· < ·) bound after before := by
  obtain ⟨gone, a, b, below, rfl, rfl, hlt⟩ := h
  exact .shrink gone below hlt

theorem read_shrinks {doc : Document} {tokens after : TokenStream} {token : Token}
    (h : doc.read tokens = .ok (token, after)) (hne : token.lexeme ≠ .eof) :
    TokenStream.Shrinks tokens.remaining after.remaining := by
  exact TokenStream.remaining_next (mapError_ok (located_ok h)) hne

/-- An expansion takes the name of the constant and adds one layer within the limit. -/
theorem expand_descends {env : Environment} {doc doc' : Document} {origin : Position}
    {before behind : TokenStream}
    (hread : TokenStream.Shrinks before.remaining behind.remaining)
    (h : doc.expand env origin behind = .ok doc') :
    Descends (· < ·) (env.options.maxSubstitutionDepth + 1) doc'.tokens.remaining
      before.remaining := by
  obtain ⟨⟨token, after⟩, hr, h⟩ := bind_eq_ok h
  have h := located_ok h
  split at h
  next name hl =>
    split at h
    · simp at h
    next value _ =>
      split at h
      · simp at h
      next hroom =>
        cases h
        -- The name was taken from some layer. The new one is pushed on what is left there.
        obtain ⟨gone, a, b, below, hbefore, hafter, hlt⟩ :=
          hread.trans (read_shrinks hr (by simp [hl]))
        have hlen : after.depth + 1 = below.length + 1 := by
          have := congrArg List.length hafter
          simpa [TokenStream.remaining, TokenStream.depth] using this
        have hsplice : (after.splice value origin).remaining =
            value.toList.length :: b :: below := by
          rw [← hafter]
          rfl
        rw [hbefore]
        show Descends _ _ (after.splice value origin).remaining _
        rw [hsplice]
        exact .push _ gone below hlt (by omega)
  · simp [unexpected] at h

/-- A document that is opened finds a file to spare. -/
theorem openFile_room {env : Environment} {isOpen : List Path} {path : Path}
    {r : Path × Document} (h : openFile env isOpen path = .ok r) :
    isOpen.length < env.options.maxIncludeDepth := by
  unfold openFile at h
  dsimp only at h
  split at h
  · simp at h
  · split at h
    · simp at h
    · omega

theorem report_ok {α : Type} {p : Position} {result : Except Cause α} {a : α}
    (h : report p result = .ok a) : result = .ok a :=
  mapError_ok h

/-- Opening a file adds a document, but takes the path before, and the open files are limited. -/
theorem rank_of_enter {env : Environment} {s s' : State} {after : TokenStream} {path : String}
    {start : Position} {target : Target}
    (hread : TokenStream.Shrinks s.document.tokens.remaining after.remaining)
    (h : s.enter env after path start target = .ok s') : env.RankLess s'.rank s.rank := by
  obtain ⟨opened, hopen, h⟩ := bind_eq_ok h
  cases h
  have hroom := openFile_room (report_ok (located_ok hopen))
  simp only [State.openFiles, List.length_append, List.length_map] at hroom
  refine .left _ _ (.push _ [] _ (descends_of_shrinks hread) ?_)
  simp only [List.length_map]
  omega

/-- Going back to a document takes the one that has ended off the stack. -/
theorem rank_of_resume {env : Environment} {s s' : State} {w : Waiting} {rest : List Waiting}
    {root : Ref} (hwaiting : s.waiting = w :: rest) (h : s.resume env w rest root = .ok s') :
    env.RankLess s'.rank s.rank := by
  obtain ⟨completed, -, h⟩ := bind_eq_ok h
  cases h
  refine .left _ _ ?_
  rw [hwaiting]
  exact .pop _ _

/-- Every step goes down. -/
theorem step_rank {env : Environment} {s s' : State} (h : step env s = .ok (.inl s')) :
    env.RankLess s'.rank s.rank := by
  obtain ⟨⟨token, after⟩, hr, h⟩ := bind_eq_ok h
  dsimp only at h
  split at h
  next hdollar =>
    obtain ⟨doc, hdoc, h⟩ := bind_eq_ok h
    cases h
    exact .left _ _ (.shrink [] _ (expand_descends (read_shrinks hr (by simp [hdollar])) hdoc))
  next =>
    obtain ⟨t, hturn, h⟩ := bind_eq_ok h
    have hranked := turn_ranked (located_ok hturn)
    cases t with
    | take heap c =>
      cases h
      exact .left _ _ (.shrink [] _ (descends_of_shrinks (read_shrinks hr hranked)))
    | keep heap c =>
      -- The texts are as they were, and only the mode goes down.
      cases h
      exact .right _ hranked
    | enter path start target =>
      obtain ⟨s'', henter, hs⟩ := map_eq_ok h
      cases hs
      exact rank_of_enter (read_shrinks hr hranked) henter
    | leave root =>
      dsimp only at h
      split at h
      · cases h
      next w rest hwaiting =>
        obtain ⟨s'', hresume, hs⟩ := map_eq_ok h
        cases hs
        exact rank_of_resume hwaiting hresume

end GraphText.Reader

import GraphText.Token.Cursor

/-!
# Token streams

A document is read through a stream of tokens. A constant that is expanded
puts its text in front of what is left, as a layer of its own, and a layer that
has been read to its end gives way to the one below it. Expansions may stand
inside expansions, so the layers form a stack on the document's own text.

Every token of an expansion stands, for messages, where the `$` that started
the expansion stands, and so does a token that cannot be read.

A stream is a value and reading gives the stream that is left, so looking at
the next token is reading it and keeping the old stream.

## Main definitions

* `TokenStream.next`: the next token and the stream behind it.
* `TokenStream.splice`: a text in front of what is left.
* `TokenStream.depth`: how many expansions are being read.
* `TokenStream.remaining`: how much of every layer is left.

## Theorems

* `TokenStream.remaining_next`: what reading a token does to the layers.
-/

namespace GraphText

/-- The text of a constant that is being read, and the place of the `$` that started it. -/
structure Expansion where
  cursor : Cursor
  origin : Position
  deriving DecidableEq

/-- What is left of a document: expansions, the innermost first, in front of its own text. -/
structure TokenStream where
  base : Cursor
  expansions : List Expansion := []
  deriving DecidableEq

namespace TokenStream

/-- The beginning of a document. -/
def ofText (text : String) : TokenStream := { base := .ofText text }

/-- The next token of a document with these expansions before its own text. -/
def nextFrom (base : Cursor) :
    List Expansion → Except (Text.Quoted.Flaw × Position) (Token × TokenStream)
  | [] =>
    match base.next with
    | .error flaw => .error (flaw, base.tokenStart.position)
    | .ok (token, after) => .ok (token, ⟨after, []⟩)
  | e :: es =>
    match e.cursor.next with
    | .error flaw => .error (flaw, e.origin)
    | .ok (token, after) =>
      if token.lexeme = .eof then nextFrom base es
      else .ok (⟨token.lexeme, e.origin⟩, ⟨base, ⟨after, e.origin⟩ :: es⟩)

/-- The next token and the stream behind it, or the flaw of a token that cannot be read and its
    place. An expansion that has ended is left only when something is read behind it. -/
def next (s : TokenStream) : Except (Text.Quoted.Flaw × Position) (Token × TokenStream) :=
  nextFrom s.base s.expansions

/-- How many expansions are being read. -/
def depth (s : TokenStream) : Nat := s.expansions.length

/-- Puts a text in front of what is left. -/
def splice (s : TokenStream) (text : String) (origin : Position) : TokenStream :=
  { s with expansions := ⟨.ofText text, origin⟩ :: s.expansions }

/-- How many characters are left of every layer, the innermost first. -/
def remaining (s : TokenStream) : List Nat :=
  s.expansions.map (fun e => e.cursor.rest.length) ++ [s.base.rest.length]

/-- Some layers are gone, and the one below them has become shorter. -/
def Shrinks (before after : List Nat) : Prop :=
  ∃ gone a b below, before = gone ++ a :: below ∧ after = b :: below ∧ b < a

theorem Shrinks.trans {l m n : List Nat} (h : Shrinks l m) (k : Shrinks m n) : Shrinks l n := by
  obtain ⟨gone, a, b, below, rfl, rfl, hlt⟩ := h
  obtain ⟨gone', a', b', below', heq, rfl, hlt'⟩ := k
  cases gone' with
  | nil =>
    simp only [List.nil_append, List.cons.injEq] at heq
    obtain ⟨rfl, rfl⟩ := heq
    exact ⟨gone, a, b', below, rfl, rfl, Nat.lt_trans hlt' hlt⟩
  | cons first rest =>
    simp only [List.cons_append, List.cons.injEq] at heq
    obtain ⟨rfl, rfl⟩ := heq
    exact ⟨gone ++ a :: rest, a', b', below', by simp, rfl, hlt'⟩

theorem remaining_nextFrom {base : Cursor} {es : List Expansion} {token : Token}
    {after : TokenStream} (h : nextFrom base es = .ok (token, after)) (hne : token.lexeme ≠ .eof) :
    Shrinks (remaining ⟨base, es⟩) after.remaining := by
  induction es with
  | nil =>
    rw [nextFrom] at h
    split at h
    · simp at h
    next t c hc =>
      simp only [Except.ok.injEq, Prod.mk.injEq] at h
      obtain ⟨rfl, rfl⟩ := h
      exact ⟨[], _, _, [], rfl, rfl, Cursor.next_rest_lt hc hne⟩
  | cons e es ih =>
    rw [nextFrom] at h
    split at h
    · simp at h
    next t c hc =>
      split at h
      · obtain ⟨gone, a, b, below, hbefore, hafter, hlt⟩ := ih h
        -- This layer has ended, and is one of those that are gone.
        refine ⟨e.cursor.rest.length :: gone, a, b, below, ?_, hafter, hlt⟩
        simpa [remaining] using hbefore
      next hmore =>
        simp only [Except.ok.injEq, Prod.mk.injEq] at h
        obtain ⟨rfl, rfl⟩ := h
        exact ⟨[], _, _, _, rfl, rfl, Cursor.next_rest_lt hc hmore⟩

/-- A token other than the end is taken from the innermost layer that has one left. -/
theorem remaining_next {s after : TokenStream} {token : Token} (h : s.next = .ok (token, after))
    (hne : token.lexeme ≠ .eof) : Shrinks s.remaining after.remaining :=
  remaining_nextFrom h hne

end TokenStream

end GraphText

import GraphText.Proofs.Reader.Blurred
import GraphText.Proofs.Token.Comments
import GraphText.Proofs.Writer.Filtered

/-!
# Graphs behind a comment

A graph is read behind a comment as it is read alone, if the comment can be
skipped. What comes up is the same heap, the same object and the same edges, and
what fails fails for the same cause. Only lines are counted from further up, and
so all that is different afterwards is the line of a place.

Two readers are run side by side, one on each text, and the column is what is
seen of a position. Behind the comment both are in front of the same words, so
their runs look the same. Included files are read by both from their first line,
so the difference is not the same number of lines everywhere, and what is said is
that without their lines the places are the same.

A comment that cannot be skipped is not read as a comment. Then nothing is read,
whatever stands behind it.

## Main definitions

* `Position.lineless`: a position without its line.
* `Agree`: results that are alike, or fail for the same cause in the same column.
* `Output.Alike`: outputs that differ in lines only.

## Theorems

* `readText_commented`: a text behind a comment that can be skipped.
* `comment_skipped_iff`: which comments are skipped.
-/

namespace GraphText

/-- The position without its line. -/
def Position.lineless (p : Position) : Position := ⟨1, p.column⟩

/-- The error without the line of its place. -/
def Error.lineless (e : Error) : Error :=
  { e with location := e.location.map (Location.moved .lineless) }

namespace Reader

/-- The results are related, or they are errors that differ in lines only. -/
def Agree {α β : Type} (R : α → β → Prop) : Except Error α → Except Error β → Prop
  | .ok a, .ok b => R a b
  | .error e, .error f => e.lineless = f.lineless
  | _, _ => False

/-- The outputs differ in lines only. -/
structure Output.Alike (out out' : Output) : Prop where
  heap : out.heap.moved .lineless = out'.heap.moved .lineless
  root : out.root = out'.root
  dependencies : out.dependencies = out'.dependencies

/-- Results that look the same, as far as columns do. -/
theorem agree_of_blurred {x y : Except Error Output}
    (h : Blur.columns.Agree Blur.columns.Outputs x y) : Agree Output.Alike x y := by
  cases x with
  | error e =>
      rcases h.of_error with ⟨f, rfl, hef⟩
      exact hef
  | ok out =>
      rcases h.of_ok with ⟨out', rfl, hout⟩
      exact ⟨hout.heap, hout.root, hout.dependencies⟩

end Reader

open Reader

section

variable {env : Environment} {heap : Heap} {comment : String}

/-- A text behind a comment that can be skipped is read as the text, but for the lines. -/
theorem readText_commented (h : Writer.IsSkippable comment) (text : String) :
    Agree Output.Alike (readText env heap (Writer.commentText comment ++ text))
      (readText env heap text) := by
  have htokens : Blur.columns.Streams (.ofText (Writer.commentText comment ++ text))
      (.ofText text) :=
    ⟨Cursor.alike_iff.1 (Cursor.alike_commentText h text), .nil⟩
  exact agree_of_blurred (Blur.run_agree (Blur.states_of_texts env heap htokens))

/-- Nothing is read behind a comment that cannot be skipped: its `#` stands where an object should
    begin. -/
theorem readText_not_skippable (h : ¬ Writer.IsSkippable comment) (text : String) :
    ∃ l, readText env heap (Writer.commentText comment ++ text) =
      .error ⟨.badTypeName (.unknown '#'), some l⟩ := by
  rcases Cursor.next_commentText h text with ⟨p, c, hnext⟩
  let doc : Document := .ofText Location.stringSource env.options.textDirectory
    (Writer.commentText comment ++ text)
  have hread : doc.read doc.tokens = .ok (⟨.unknown '#', p⟩, ⟨c, []⟩) := by
    have htokens : doc.tokens.next = .ok (⟨.unknown '#', p⟩, ⟨c, []⟩) := by
      unfold TokenStream.next
      show TokenStream.nextFrom (Cursor.ofText _) [] = _
      rw [TokenStream.nextFrom, hnext]
    rw [Document.read, htokens]
    rfl
  refine ⟨doc.locate p, run_of_error ?_⟩
  rw [step_eq]
  show doc.read doc.tokens >>= _ = _
  rw [hread]
  rfl

end

namespace Writer

variable {σ : Type}

/-- The output of a writer that has written a comment. -/
theorem comment_fresh (comment : String) (state : σ) :
    Writer.comment ⟨{}, state⟩ comment =
      (⟨{ bytes := (commentText comment).toByteArray }, state⟩, .ok ()) := by
  unfold Writer.comment Writer.perform
  simp only [Sink.perform, write_of_unlimited (s := {}) rfl, ByteArray.empty_append]
  rfl

/-- A comment is put in front of what is written next, which is what is written without it. -/
theorem object_behind_comment (comment : String) (setting : Setting σ) (state : σ) (r : Ref) :
    ∃ text,
      (Writer.object ⟨{}, state⟩ setting r).1.sink.bytes = String.toByteArray text ∧
      ((Writer.comment ⟨{}, state⟩ comment).1.object setting r).1.sink.bytes =
        (commentText comment ++ text).toByteArray := by
  rcases exists_leaves [] state (objectCall setting state r).1 with
    ⟨text, labelled, after, hleaves, -⟩
  have hobject : ∀ bytes, (Writer.object ⟨{ bytes }, state⟩ setting r).1.sink.bytes =
      bytes ++ text.toByteArray := by
    intro bytes
    unfold Writer.object Writer.perform
    rw [hleaves.unlimited bytes]
  refine ⟨text, ?_, ?_⟩
  · rw [hobject .empty, ByteArray.empty_append]
  · rw [comment_fresh, hobject, String.toByteArray_append]

/-- Exactly the comments whose carriage returns all stand at the ends of lines leave the words of
    every text behind them as they are. An object that is written behind such a comment is read as
    it is read alone, and one behind any other comment is not read at all. -/
theorem comment_skipped_iff (comment : String) :
    ((∀ text, (Cursor.ofText (commentText comment ++ text)).words = (Cursor.ofText text).words) ↔
      IsSkippable comment) ∧
    ∀ (σ : Type) (setting : Setting σ) (state : σ) (r : Ref),
      (Writer.comment ⟨{}, state⟩ comment).1.sink.bytes = (commentText comment).toByteArray ∧
      ∃ text,
        (Writer.object ⟨{}, state⟩ setting r).1.sink.bytes = String.toByteArray text ∧
        ((Writer.comment ⟨{}, state⟩ comment).1.object setting r).1.sink.bytes =
          (commentText comment ++ text).toByteArray ∧
        ∀ (env : Environment) (heap : Heap),
          (IsSkippable comment →
            Agree Output.Alike (readText env heap (commentText comment ++ text))
              (readText env heap text)) ∧
          (¬ IsSkippable comment →
            ∃ l, readText env heap (commentText comment ++ text) =
              .error ⟨.badTypeName (.unknown '#'), some l⟩) := by
  refine ⟨Cursor.words_commentText_iff, fun σ setting state r => ⟨?_, ?_⟩⟩
  · rw [comment_fresh]
  · rcases object_behind_comment comment setting state r with ⟨text, halone, hbehind⟩
    exact ⟨text, halone, hbehind, fun env heap =>
      ⟨fun h => readText_commented h text, fun h => readText_not_skippable h text⟩⟩

/-- A carriage return right before a newline is a part of the line end. -/
theorem comment_skipped_pair :
    IsSkippable "a\r\nb" ∧
      ∀ text, (Cursor.ofText (commentText "a\r\nb" ++ text)).words =
        (Cursor.ofText text).words := by
  have hskippable : IsSkippable "a\r\nb" := by decide
  exact ⟨hskippable, (comment_skipped_iff "a\r\nb").1.2 hskippable⟩

/-- A carriage return inside a line is written into the line, and then its `#` is a word. -/
theorem not_comment_skipped :
    ¬ ∀ comment text,
      (Cursor.ofText (commentText comment ++ text)).words = (Cursor.ofText text).words := by
  intro hall
  have hskippable : ¬ IsSkippable "a\rb" := by decide
  exact hskippable (Cursor.words_commentText_iff.1 (hall "a\rb"))

end Writer

end GraphText

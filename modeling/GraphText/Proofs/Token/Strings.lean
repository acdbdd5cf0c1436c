import GraphText.Proofs.Token.Quotes
import GraphText.Writer.Script

/-!
# Written strings

A string that is written in quotes is read as what it was, and nothing behind
its closing quote is looked at. So what is read does not depend on what follows,
be it another quote, and a string that is written alone is one token.

Writing and reading have a list of escapes each, and the two lists are not the
same: reading knows one more. What is needed is that every letter that is written
behind a backslash means what it was written for, and that whatever is written
without a backslash is neither of the two characters that mean something in a
string.

## Theorems

* `Text.Quoted.means_body`: what is written of a string means the string.
* `Cursor.next_quote`: the token of a written string, and what is left behind it.
* `Cursor.quote_read_back`: the same for any text behind it, and for none.
-/

namespace GraphText

/-- What is written of a string means the string. -/
theorem Text.Quoted.means_body (cs : List Char) : Means (body cs) cs := by
  induction cs with
  | nil => exact .nil
  | cons c cs ih =>
      rw [body]
      split
      next letter hletter =>
        exact .escape (escapeMeaning_eq_some_iff.1 (escapeMeaning_escapeLetter hletter)) ih
      next hbare =>
        rcases ne_of_escapeLetter_eq_none hbare with ⟨hquote, hback⟩
        exact .bare hquote hback ih

namespace Cursor

/-- A written string is one token, whatever follows it, and leaves what follows. -/
theorem next_quote (s : String) (rest : List Char) (p : Position) :
    (⟨(Writer.quote s).toList ++ rest, p⟩ : Cursor).next =
      .ok (⟨.quoted s, p⟩, ⟨rest, p.after (Writer.quote s).toList⟩) := by
  have hquote : (Writer.quote s).toList = '"' :: (Text.Quoted.body s.toList ++ ['"']) :=
    String.toList_ofList
  have hnext := next_closed (Text.Quoted.means_body s.toList) rest p
  rw [String.ofList_toList] at hnext
  rw [hquote, List.cons_append, List.append_assoc]
  exact hnext

/-- A written string is read back: in front of any text as one token that leaves this text, and
    alone as the only token. -/
theorem quote_read_back (s : String) :
    (∀ rest p, (⟨(Writer.quote s).toList ++ rest, p⟩ : Cursor).next =
      .ok (⟨.quoted s, p⟩, ⟨rest, p.after (Writer.quote s).toList⟩)) ∧
    (Cursor.ofText (Writer.quote s)).tokens = .ok [⟨.quoted s, .start⟩] := by
  refine ⟨next_quote s, ?_⟩
  have hnext : (Cursor.ofText (Writer.quote s)).next =
      .ok (⟨.quoted s, .start⟩, ⟨[], Position.start.after (Writer.quote s).toList⟩) := by
    have h := next_quote s [] .start
    rwa [List.append_nil] at h
  have hend : (⟨[], Position.start.after (Writer.quote s).toList⟩ : Cursor).tokens = .ok [] := by
    rw [tokens]
    rfl
  rw [tokens]
  split
  next flaw hflaw => cases hnext.symm.trans hflaw
  next token after hok =>
    cases hnext.symm.trans hok
    rw [dif_neg nofun, hend]
    rfl

end Cursor

end GraphText

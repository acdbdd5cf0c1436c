/-!
# Quoted strings

A string is written between double quotes, with a backslash before whatever
could not stand for itself. Reading knows one escape more than writing uses:
the single quote may be escaped, and never has to be.

Reading works on the characters after the opening quote and hands back what
follows the closing one, so that a lexer can go on from there. It takes a
backslash together with the character after it: a quote after a backslash
closes nothing.

## Main definitions

* `escapeMeaning`: the character that an escape letter stands for.
* `escapeLetter`: the letter that a character is escaped with.
* `body`: the written form of a string, without its quotes.
* `read`: the string that a quoted text holds, and what follows it.
* `width`: how many characters that string takes.

## Theorems

* `escapeMeaning_escapeLetter`: a written escape is read as what was written.
* `read_rest`: what follows a string stands behind its width.
* `read_body`: a written string is read back, whatever follows it.
-/

namespace GraphText.Text.Quoted

/-- Why a quoted text cannot be read. -/
inductive Flaw where
  /-- a backslash before a character that is no escape letter -/
  | escape (letter : Char)
  /-- the text ends before the closing quote -/
  | unclosed
  deriving DecidableEq

/-- The character that a backslash and this letter stand for. -/
def escapeMeaning : Char → Option Char
  | 'a' => some '\x07'
  | 'b' => some '\x08'
  | 'f' => some '\x0c'
  | 'n' => some '\n'
  | 'r' => some '\r'
  | 't' => some '\t'
  | 'v' => some '\x0b'
  | '0' => some '\x00'
  | '\\' => some '\\'
  | '"' => some '"'
  | '\'' => some '\''
  | _ => none

/-- The letter that this character is written with after a backslash, if it may not stand bare. -/
def escapeLetter : Char → Option Char
  | '\x07' => some 'a'
  | '\x08' => some 'b'
  | '\x0c' => some 'f'
  | '\n' => some 'n'
  | '\r' => some 'r'
  | '\t' => some 't'
  | '\x0b' => some 'v'
  | '\x00' => some '0'
  | '\\' => some '\\'
  | '"' => some '"'
  | _ => none

/-- The written form of a string, without its quotes. -/
def body : List Char → List Char
  | [] => []
  | c :: cs =>
    match escapeLetter c with
    | some letter => '\\' :: letter :: body cs
    | none => c :: body cs

/-- Reads up to the closing quote: the string before it and the text behind it. -/
def read : List Char → Except Flaw (List Char × List Char)
  | [] => .error .unclosed
  | '"' :: rest => .ok ([], rest)
  | '\\' :: [] => .error .unclosed
  | '\\' :: letter :: rest =>
    match escapeMeaning letter with
    | none => .error (.escape letter)
    | some c => (read rest).map fun r => (c :: r.1, r.2)
  | c :: rest => (read rest).map fun r => (c :: r.1, r.2)

/-- How many characters a string takes, with its closing quote. -/
def width : List Char → Nat
  | [] => 0
  | '"' :: _ => 1
  | '\\' :: [] => 1
  | '\\' :: _ :: rest => width rest + 2
  | _ :: rest => width rest + 1

/-- A string between its quotes. -/
def text (cs : List Char) : List Char :=
  '"' :: (body cs ++ ['"'])

theorem escapeMeaning_escapeLetter {c letter : Char} (h : escapeLetter c = some letter) :
    escapeMeaning letter = some c := by
  unfold escapeLetter at h
  split at h <;> simp at h <;> subst h <;> rfl

/-- A character that is written bare is neither a quote nor a backslash. -/
theorem ne_of_escapeLetter_eq_none {c : Char} (h : escapeLetter c = none) :
    c ≠ '"' ∧ c ≠ '\\' := by
  constructor <;> rintro rfl <;> simp [escapeLetter] at h

theorem read_cons {c : Char} (hq : c ≠ '"') (hb : c ≠ '\\') (rest : List Char) :
    read (c :: rest) = (read rest).map fun r => (c :: r.1, r.2) := by
  rw [read.eq_def]
  split <;> simp_all

theorem width_cons {c : Char} (hq : c ≠ '"') (hb : c ≠ '\\') (rest : List Char) :
    width (c :: rest) = width rest + 1 := by
  rw [width.eq_def]
  split <;> simp_all

/-- What follows a string is what is left behind its width. -/
theorem read_rest {cs : List Char} {r : List Char × List Char} (h : read cs = .ok r) :
    r.2 = cs.drop (width cs) := by
  fun_induction read cs generalizing r with
  | case1 => simp at h
  | case2 rest =>
    simp only [Except.ok.injEq] at h
    simp [← h, width]
  | case3 => simp at h
  | case4 => simp at h
  | case5 letter rest c hc ih =>
    cases hr : read rest with
    | error f => simp [hr, Except.map] at h
    | ok q =>
      simp only [hr, Except.map, Except.ok.injEq] at h
      rw [← h, ih hr, width]
      rfl
  | case6 c rest h₁ h₂ h₃ ih =>
    cases hr : read rest with
    | error f => simp [hr, Except.map] at h
    | ok q =>
      simp only [hr, Except.map, Except.ok.injEq] at h
      -- A backslash has been dealt with, alone and in front of a letter.
      have hb : c ≠ '\\' := by
        rintro rfl
        cases rest with
        | nil => exact h₂ rfl rfl
        | cons letter rest => exact h₃ letter rest rfl rfl
      rw [← h, ih hr, width_cons h₁ hb]
      rfl

/-- A written string is read back, whatever follows it. -/
theorem read_body (cs rest : List Char) : read (body cs ++ '"' :: rest) = .ok (cs, rest) := by
  induction cs with
  | nil => rfl
  | cons c cs ih =>
    rw [body]
    split
    next letter h =>
      simp [read, escapeMeaning_escapeLetter h, ih, Except.map]
    next h =>
      obtain ⟨hq, hb⟩ := ne_of_escapeLetter_eq_none h
      rw [List.cons_append, read_cons hq hb, ih]
      rfl

end GraphText.Text.Quoted

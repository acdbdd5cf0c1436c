import GraphText.Proofs.Reader.Filling

/-!
# How an object with a body is made

In front of a body stands a type name, or a `CLONE` with the names of a template
and of the copy. The object is made when the body of a new object is opened, or
when the copy is made, which may be some steps before its body is opened. Until
then the mode says what has been read, and it goes back to the token that the
object begins with.

Everything else that may stand for an object ends without a body: a reference,
and an include, in whose file other objects may be read with bodies of their own.

From the opening brace on, `State.Filled` says what happens. So all that can be
said of a body at any point of reading is `State.Progress`, and it goes along
with the record.

## Main definitions

* `State.First`: the token that an object begins with.
* `State.Clones`, `State.Makes`: how an object is made.
* `State.Heads`: what is known in front of the body.
* `State.Progress`: how far an object has been read.

## Theorems

* `State.Progress.step`: every step goes on, with what it adds to the record.
* `progress_of_fills`, `exists_fills`: at every point there is a record, and it is right.
-/

namespace GraphText.Reader

/-- The object that the first state waits for begins with this token. -/
def State.First (env : Environment) (a : State) (first : Token) : Prop :=
  ∃ s after, Reading env a s ∧ s.waiting = a.waiting ∧
    s.document.context = a.document.context ∧
    s.document.read s.document.tokens = .ok (first, after) ∧ first.lexeme ≠ .punct '$'

/-- The `CLONE` of this token, whose template is this object, comes to its new name. -/
structure State.Clones (env : Environment) (a : State) (target : Target) (first : Token)
    (template : Ref) (name : String) (s : State) : Prop where
  reading : Reading env a s
  mode : ∃ word p, s.document.context.mode = .cloningFrom first.position word p target
  found : s.template? = some template
  next : ∃ token after, s.document.read s.document.tokens = .ok (token, after) ∧
    token.lexeme = .quoted name

/-- How the object that the first state waits for is made, and what it is then: a new object, or a
    copy under a new name. -/
inductive State.Makes (env : Environment) (a : State) (target : Target) :
    Ref → Instance → Prop where
  | new {first word spec name object} (hfirst : a.First env first)
      (hl : first.lexeme = .name word) (hclone : word ≠ "CLONE")
      (hspec : env.registry.find? word = some spec) :
      a.Makes env target object (newObject a.document.source spec first.position name)
  | copy {first template name s s' heap copy} (hfirst : a.First env first)
      (hl : first.lexeme = .name "CLONE") (hclones : a.Clones env target first template name s)
      (hcopy : s.heap.copy env.registry template true = .ok (heap, copy))
      (hstep : step env s = .ok (.inl s'))
      (hheap : s'.heap =
        heap.modify copy (renamedCopy a.document.source first.position name)) :
      a.Makes env target copy
        (renamedCopy a.document.source first.position name (heap.get copy))

/-- What is known in front of the body, in the modes that come up there. -/
inductive State.Heads (env : Environment) (a s : State) (target : Target) : Mode → Prop where
  | object (h : s.document.context = a.document.context) : a.Heads env s target (.object target)
  | used : a.Heads env s target (.used target)
  | including {start} : a.Heads env s target (.including start target)
  | includingPath {start path} : a.Heads env s target (.includingPath start path target)
  | typed {first word spec} (hfirst : a.First env first) (hl : first.lexeme = .name word)
      (hclone : word ≠ "CLONE") (hspec : env.registry.find? word = some spec) :
      a.Heads env s target (.typed spec first.position target)
  | named {first word spec name} (hfirst : a.First env first) (hl : first.lexeme = .name word)
      (hclone : word ≠ "CLONE") (hspec : env.registry.find? word = some spec) :
      a.Heads env s target (.named spec first.position name target)
  | cloning {first} (hfirst : a.First env first) (hl : first.lexeme = .name "CLONE") :
      a.Heads env s target (.cloning first.position target)
  | cloningFrom {first template p} (hfirst : a.First env first)
      (hl : first.lexeme = .name "CLONE") :
      a.Heads env s target (.cloningFrom first.position template p target)
  | cloned {copy start} (hlt : copy < s.heap.size)
      (hmakes : a.Makes env target copy (s.heap.get copy)) :
      a.Heads env s target (.cloned copy start target)

/-- How far the reading of an object with a body has come, with this record. -/
inductive State.Progress (env : Environment) (a : State) (target : Target) (s : State) :
    Record → Prop where
  /-- the body has not been opened -/
  | head (hwaiting : s.waiting = a.waiting)
      (hbodies : s.document.context.bodies = a.document.context.bodies)
      (hsource : s.document.source = a.document.source)
      (h : a.Heads env s target s.document.context.mode) : a.Progress env target s []
  /-- an include is read in its place, and there will be no body -/
  | included {upper w} (hwaiting : s.waiting = upper ++ w :: a.waiting)
      (hbodies : w.document.context.bodies = a.document.context.bodies) :
      a.Progress env target s []
  /-- the body is open -/
  | body {own i record} (htarget : own.target = target) (hmakes : a.Makes env target own.object i)
      (h : a.Filled s own i record) : a.Progress env target s record

section

variable {env : Environment} {a s s' : State} {target : Target} {record : Record} {base : Nat}
  {token : Token} {heap heap' : Heap} {c c' : Context} {r : Ref}

theorem State.Heads.target? {mode : Mode} (h : a.Heads env s target mode) :
    mode.target? = some target := by
  cases h <;> rfl

theorem State.Heads.not_isBehindValue {mode : Mode} (h : a.Heads env s target mode) :
    ¬ mode.IsBehindValue := by
  cases h <;> exact id

/-- In front of the body, a step adds nothing. -/
theorem adds_nothing_of_target? (hmode : s.document.context.mode.target? = some target)
    (hbehind : ¬ s'.document.context.mode.IsBehindValue) : a.Adds env s s' none := by
  refine adds_nothing (fun _ => not_begins_of_target? hmode) ?_ fun _ _ => hbehind
  exact fun _ _ _ _ => not_takes_of_target? hmode

theorem not_inner_of_bodies (hbodies : s.document.context.bodies = a.document.context.bodies) :
    ¬ a.Inner s := by
  rintro ⟨-, hlength⟩
  rw [hbodies] at hlength
  omega

/-- What is known in front of the body does not depend on what is left of the document. -/
theorem State.Heads.keep {mode : Mode} (h : a.Heads env s target mode) (hheap : s'.heap = s.heap)
    (hcontext : s'.document.context = s.document.context) : a.Heads env s' target mode := by
  cases h with
  | object h => exact .object (hcontext.trans h)
  | used => exact .used
  | including => exact .including
  | includingPath => exact .includingPath
  | typed hfirst hl hclone hspec => exact .typed hfirst hl hclone hspec
  | named hfirst hl hclone hspec => exact .named hfirst hl hclone hspec
  | cloning hfirst hl => exact .cloning hfirst hl
  | cloningFrom hfirst hl => exact .cloningFrom hfirst hl
  | cloned hlt hmakes => exact .cloned (hheap ▸ hlt) (hheap ▸ hmakes)

/-- A new object is made where the token that it begins with is known. -/
theorem State.Heads.makes {mode : Mode} {spec : ObjectSpec} {start : Position} {name : String}
    {target' : Target} (h : a.Heads env s target mode)
    (hopens : Opens mode spec start name target') :
    target' = target ∧ ∀ object,
      a.Makes env target object (newObject a.document.source spec start name) := by
  cases hopens with
  | unnamed =>
      cases h with
      | typed hfirst hl hclone hspec => exact ⟨rfl, fun _ => .new hfirst hl hclone hspec⟩
  | named =>
      cases h with
      | named hfirst hl hclone hspec => exact ⟨rfl, fun _ => .new hfirst hl hclone hspec⟩

/-- A token that changes the mode only, in front of the body. -/
theorem State.Heads.lead {mode mode' : Mode} {after : TokenStream}
    (h : a.Heads env s target mode) (hreading : Reading env a s) (hwaiting : s.waiting = a.waiting)
    (hread : s.document.read s.document.tokens = .ok (token, after))
    (hlead : Leads env.registry s.document.context token mode mode') (s' : State) :
    a.Heads env s' target mode' := by
  -- The first token that expands nothing is the one that the object begins with.
  have hfirst : ∀ {word}, s.document.context = a.document.context →
      token.lexeme = .name word → a.First env token := by
    intro word hcontext hl
    refine ⟨s, after, hreading, hwaiting, hcontext, hread, fun hdollar => ?_⟩
    rw [hl] at hdollar
    cases hdollar
  cases hlead with
  | «include» => cases h; exact .including
  | use => cases h; exact .used
  | clone hl =>
      cases h with
      | object hcontext => exact .cloning (hfirst hcontext hl) hl
  | type hl hclone huse hspec =>
      cases h with
      | object hcontext => exact .typed (hfirst hcontext hl) hl hclone hspec
  | objectName =>
      cases h with
      | typed hfirst hl hclone hspec => exact .named hfirst hl hclone hspec
  | template =>
      cases h with
      | cloning hfirst hl => exact .cloningFrom hfirst hl
  | path => cases h; exact .includingPath
  | _ => cases h

/-- A body is opened, and nothing has been given. -/
theorem progress_of_openBody {own : Body} (hwaiting : s.waiting = a.waiting)
    (hbodies : s.document.context.bodies = a.document.context.bodies)
    (hcontext : s'.document.context = s.document.context.openBody own)
    (hsame : s'.waiting = s.waiting) (htarget : own.target = target)
    (hlt : own.object < s'.heap.size)
    (hmakes : a.Makes env target own.object (s'.heap.get own.object)) :
    a.Progress env target s' [] := by
  refine .body htarget hmakes (.here (hsame.trans hwaiting) ⟨[], [], ⟨⟨own.seenField, ?_⟩, hlt,
    .nil _ _, rfl⟩, ?_⟩)
  · rw [hcontext, ← hbodies]
    rfl
  · rw [hcontext]
    rfl

/-- A turn in front of the body leads on, or into the body. -/
theorem progress_of_move {after tokens : TokenStream} (hreading : Reading env a s)
    (hwaiting : s.waiting = a.waiting)
    (hbodies : s.document.context.bodies = a.document.context.bodies)
    (hsource : s.document.source = a.document.source)
    (h : a.Heads env s target s.document.context.mode)
    (hread : s.document.read s.document.tokens = .ok (token, after))
    (hstep : step env s = .ok (.inl s')) (hback : ¬ a.Back s')
    (hs' : s' = { s with heap := heap', document := { s.document with tokens, context := c' } })
    (hmove : Move env.registry s.document.source s.heap s.document.context token heap' c') :
    a.Progress env target s' [] ∧ ¬ s'.document.context.mode.IsBehindValue := by
  have htarget := h.target?
  -- In front of the body nothing can be completed, as that would lead back out of the object.
  cases hmove with
  | lead hlead =>
      have hheads := h.lead hreading hwaiting hread hlead s'
      subst hs'
      exact ⟨.head hwaiting hbodies hsource hheads, hheads.not_isBehindValue⟩
  | constant hmode =>
      rw [hmode] at htarget
      cases htarget
  | refer hrefers hdeliver =>
      subst hs'
      exact (hback (back_of_deliver hwaiting (congrArg _ hbodies) hdeliver)).elim
  | openNew hopens hconcrete =>
      rcases h.makes hopens with ⟨rfl, hmakes⟩
      subst hs'
      refine ⟨progress_of_openBody hwaiting hbodies rfl rfl rfl (by simp) ?_, id⟩
      dsimp only
      rw [Heap.get_alloc, if_pos rfl, hsource]
      exact hmakes _
  | @copy start template p name target' r copied copy hmode hl hr hcopy =>
      rcases Heap.copy_eq_ok hcopy with ⟨rfl, hgrown, -⟩
      rw [hmode] at h
      cases h with
      | cloningFrom hfirst hclone =>
          have htemplate : s.template? = some r := by
            unfold State.template?
            rw [hmode]
            exact hr
          have hmakes := State.Makes.copy hfirst hclone
            ⟨hreading, ⟨template, p, hmode⟩, htemplate, token, after, hread, hl⟩ hcopy hstep
            (by rw [hs', hsource])
          subst hs'
          refine ⟨.head hwaiting hbodies hsource (.cloned ?_ ?_), id⟩
          · rw [Heap.size_modify]
            exact hgrown
          · dsimp only
            rw [Heap.get_modify, if_pos ⟨rfl, hgrown⟩, hsource]
            exact hmakes
  | openCopy hmode hl hspec =>
      rw [hmode] at h
      cases h with
      | cloned hlt hmakes =>
          subst hs'
          exact ⟨progress_of_openBody hwaiting hbodies rfl rfl rfl hlt hmakes, id⟩
  | endCopy hmode hl hcomplete =>
      subst hs'
      exact (hback (back_of_complete hwaiting (congrArg _ hbodies) hcomplete)).elim
  | close hmode =>
      rw [hmode] at htarget
      cases htarget
  | store hgathers =>
      rw [target?_of_gathers hgathers] at htarget
      cases htarget

/-- While an include is read in place of a body, nothing is added. -/
theorem progress_of_included {upper : List Waiting} {w : Waiting} (houter : ¬ a.Inner s)
    (hwaiting : s'.waiting = upper ++ w :: a.waiting)
    (hbodies : w.document.context.bodies = a.document.context.bodies) :
    a.Progress env target s' [] ∧ a.Adds env s s' none :=
  ⟨.included hwaiting hbodies, adds_nothing_outside houter (not_inner_of_waits hwaiting)⟩

/-- A step in front of the body adds nothing. -/
theorem progress_of_heads (hreading : Reading env a s) (hwaiting : s.waiting = a.waiting)
    (hbodies : s.document.context.bodies = a.document.context.bodies)
    (hsource : s.document.source = a.document.source)
    (h : a.Heads env s target s.document.context.mode) (hstep : step env s = .ok (.inl s'))
    (hback : ¬ a.Back s') : a.Progress env target s' [] ∧ a.Adds env s s' none := by
  -- A dollar and an include leave the head as it is; only a move can lead on.
  cases stepped_of_step hstep with
  | expand hread hl hexpand =>
      rcases expand_eq_ok hexpand with ⟨tokens, rfl⟩
      exact ⟨.head hwaiting hbodies hsource (h.keep rfl rfl), adds_nothing_of_dollar hread hl⟩
  | move hread htokens hmove =>
      rcases progress_of_move hreading hwaiting hbodies hsource h hread hstep hback rfl hmove with
        ⟨hprogress, hbehind⟩
      exact ⟨hprogress, adds_nothing_of_target? h.target? hbehind⟩
  | @enter token after path start inner _ hread hmode henter =>
      rcases enter_eq_ok_iff.1 henter with ⟨file, included, -, rfl⟩
      let w : Waiting := ⟨{ s.document with tokens := after }, start, inner, file⟩
      have hstack : w :: s.waiting = [] ++ w :: a.waiting := congrArg (List.cons w) hwaiting
      exact progress_of_included (not_inner_of_bodies hbodies) hstack hbodies
  | leave hmode =>
      have htarget := h.target?
      rw [hmode] at htarget
      cases htarget

/-- Nor does a step in an include in its place. -/
theorem progress_of_waits {upper : List Waiting} {w : Waiting}
    (hwaiting : s.waiting = upper ++ w :: a.waiting)
    (hbodies : w.document.context.bodies = a.document.context.bodies)
    (hstep : step env s = .ok (.inl s')) (hback : ¬ a.Back s') :
    a.Progress env target s' [] ∧ a.Adds env s s' none := by
  have houter := not_inner_of_waits hwaiting
  cases stepped_of_step hstep with
  | expand hread hl hexpand =>
      rcases expand_eq_ok hexpand with ⟨tokens, rfl⟩
      exact progress_of_included houter hwaiting hbodies
  | move hread htokens hmove => exact progress_of_included houter hwaiting hbodies
  | @enter token after path start inner _ hread hmode henter =>
      rcases enter_eq_ok_iff.1 henter with ⟨file, included, -, rfl⟩
      let next : Waiting := ⟨{ s.document with tokens := after }, start, inner, file⟩
      have hstack : next :: s.waiting = (next :: upper) ++ w :: a.waiting :=
        congrArg (List.cons next) hwaiting
      exact progress_of_included houter hstack hbodies
  | leave hmode hrest hresume =>
      rcases resume_eq_ok hresume with ⟨heap, context, hcomplete, rfl⟩
      rw [hwaiting] at hrest
      -- If no other file waits above the document of the object, the include ends there.
      cases upper with
      | nil =>
          cases hrest
          exact (hback (back_of_complete rfl (congrArg _ hbodies) hcomplete)).elim
      | cons first upper =>
          cases hrest
          exact progress_of_included houter rfl hbodies

/-- Every step goes on with the object and its record, if it does not end the reading. -/
theorem State.Progress.step (h : a.Progress env target s record)
    (hmode : a.document.context.mode = .object target) (hreading : Reading env a s)
    (hsound : s.Sound base) (htyped : s.Typed env.registry base)
    (hstep : step env s = .ok (.inl s')) (hback : ¬ a.Back s') :
    ∃ part? record', a.Progress env target s' record' ∧ record.Grows part? record' ∧
      a.Adds env s s' part? := by
  cases h with
  | head hwaiting hbodies hsource h =>
      rcases progress_of_heads hreading hwaiting hbodies hsource h hstep hback with
        ⟨hprogress, hadds⟩
      exact ⟨none, [], hprogress, .nothing, hadds⟩
  | included hwaiting hbodies =>
      rcases progress_of_waits hwaiting hbodies hstep hback with ⟨hprogress, hadds⟩
      exact ⟨none, [], hprogress, .nothing, hadds⟩
  | body htarget hmakes h =>
      rcases h.step (within_of_reading hmode hreading) hsound htyped hstep hback with
        ⟨part?, record', h', hgrows, hadds⟩
      exact ⟨part?, record', .body htarget hmakes h', hgrows, hadds⟩

end

end GraphText.Reader

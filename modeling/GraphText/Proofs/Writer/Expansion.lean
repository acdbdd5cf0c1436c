import GraphText.Proofs.Heap.Contents
import GraphText.Proofs.Writer.Names
import GraphText.Proofs.Writer.Outline

/-!
# Every object is written in full once

The writer does not look for cycles. It writes an object by name if it has been
written and has a name, so it ends only if everything that it can meet again has
one. The names come from the survey, which counts arrivals on a walk of its own.
That the two agree is the invariant here: what the writer has met, followed by
what the walk still arrives at, are the arrivals that were counted. An object
that the writer meets again has then been counted twice, and has a name.

The proof follows the recursion of the writer, with the number of objects that
have not been written as its measure. It gives more than the claim that the fuel
is enough: with any fuel that is enough the writer does the same.

## Main definitions

* `FieldKind.CanKeep`: the contents that a field can keep, stored or not.
* `FieldKind.IsBuilt`, `Instance.IsBuilt`: fields that take values of a kind and
  hold such values.
* `Track`: what has been met and what is still to be met.
* `unwritten`: how many objects have not been written.
* `Writes`: what an action puts out, and what it has met after it.
* `Expands`: what is to be shown of the objects of a body, up to a measure.
* `IsShaped`: values that can be written.
* `IsFlat`: values that are written side by side.

## Theorems

* `object_expands`: what is written for an object.
* `exists_outline`: the outline of a whole graph, with the names of the survey.
* `objectText_outline`: the text of a graph is that of an outline that shows
  every object in full where it comes first.
-/

namespace GraphText

/-- Whether the field takes values of a kind, and not whatever it is given. -/
def FieldKind.IsBuilt : FieldKind → Prop
  | .raw _ _ => False
  | _ => True

/-- The contents that a field of this kind can keep. Not all of them can be stored: whoever holds
    the object may set a choice to any text, and flags to bits that nothing declares. -/
def FieldKind.CanKeep : FieldKind → Content → Prop
  | .choice _, .values vs => ∃ text, vs = [.string text]
  | .flags _, .bits _ => True
  | kind, content => kind.Admits content

/-- Whether these fields take values of a kind, and the object keeps such values for them. -/
def Instance.IsBuilt (i : Instance) (fields : List FieldSpec) : Prop :=
  ∀ field ∈ fields, field.kind.IsBuilt ∧
    ∀ content, i.slots.find? field.name = some content → field.kind.CanKeep content

/-- What belongs into a field can be kept there. -/
theorem FieldKind.canKeep_of_admits {kind : FieldKind} {content : Content}
    (h : kind.Admits content) : kind.CanKeep content := by
  cases content with
  | bits b =>
      cases kind with
      | flags table => trivial
      | scalar | array | list | choice | object | objects | raw => exact h
  | values vs =>
      cases kind with
      | choice names =>
          rcases h with ⟨name, -, rfl⟩
          exact ⟨name, rfl⟩
      | scalar | array | list | flags | object | objects | raw => exact h

namespace Writer

/-- Whether the values of a field are one object, one list of objects, or scalars. -/
def IsShaped (vs : List Value) : Prop :=
  (∃ r, vs = [.object r]) ∨ (∃ rs, vs = [.objects rs]) ∨ ∀ v ∈ vs, IsScalar v

theorem IsShaped.string (text : String) : IsShaped [.string text] :=
  .inr (.inr (by simp [IsScalar, Value.type]))

theorem IsShaped.scalars {vs : List Value} (type : ScalarType)
    (htypes : ∀ v ∈ vs, v.type = .scalar type) : IsShaped vs :=
  .inr (.inr fun v hv => ⟨type, htypes v hv⟩)

/-- A field that takes values of a kind is written as values of that kind. -/
theorem shape_of_kept {kind : FieldKind} {content : Content} {vs : List Value}
    (hbuilt : kind.IsBuilt) (hkept : kind.CanKeep content)
    (hfetch : kind.fetch? content = some vs) : IsShaped vs := by
  cases content with
  | bits b =>
      cases kind with
      | flags table =>
          cases hfetch
          exact .string _
      | scalar | array | list | choice | object | objects | raw => cases hfetch
  | values given =>
      cases kind with
      | scalar type =>
          cases hfetch
          rcases hkept with ⟨v, rfl, htype⟩
          exact .scalars type (by simpa using htype)
      | array type count =>
          cases hfetch
          exact .scalars type hkept.2
      | list type =>
          cases hfetch
          exact .scalars type hkept
      | choice names =>
          cases hfetch
          rcases hkept with ⟨text, rfl⟩
          exact .string text
      | flags table => cases hfetch
      | object required =>
          cases hfetch
          exact .inl hkept
      | objects required =>
          cases hfetch
          exact .inr (.inl hkept)
      | raw type arity => exact hbuilt.elim

/-- What has been written and what has been met are the same objects, and with what the walk still
    arrives at from the pending ones they are all arrivals. -/
structure Track (reg : Registry) (h : Heap) (all written seen pending : List Ref) : Prop where
  same : ∀ r, r ∈ written ↔ r ∈ seen
  arrivals : ∃ met, (∀ r < h.size, r ∈ met ↔ r ∈ written) ∧
    all = seen ++ Heap.arrivalsFrom h.size (h.children reg.visibleOf) met pending

namespace Track

variable {reg : Registry} {h : Heap} {all written seen pending : List Ref} {r : Ref}

theorem children_eq_nil (hr : h.size ≤ r) : h.children reg.visibleOf r = [] :=
  List.eq_nil_iff_forall_not_mem.2 fun x => Heap.not_linked_of_size_le hr x

/-- Meeting an object that has been written. -/
theorem again (ht : Track reg h all written seen (r :: pending)) (hr : r ∈ written) :
    Track reg h all written (seen ++ [r]) pending := by
  rcases ht.arrivals with ⟨met, hmet, harrivals⟩
  refine ⟨fun x => ?_, met, hmet, ?_⟩
  · rw [List.mem_append, List.mem_singleton, ht.same]
    constructor
    · exact .inl
    · rintro (hx | rfl)
      · exact hx
      · exact (ht.same x).1 hr
  · have hold : ¬ (r < h.size ∧ met.contains r = false) := by
      rintro ⟨hlt, hnew⟩
      have hmem := (hmet r hlt).2 hr
      simp [hmem] at hnew
    rw [harrivals, Heap.arrivalsFrom, dif_neg hold, List.append_assoc]
    rfl

/-- Meeting an object that has not been written. -/
theorem first (ht : Track reg h all written seen (r :: pending)) (hr : r ∉ written) :
    Track reg h all (r :: written) (seen ++ [r]) (h.children reg.visibleOf r ++ pending) := by
  rcases ht.arrivals with ⟨met, hmet, harrivals⟩
  have hsame : ∀ x, x ∈ r :: written ↔ x ∈ seen ++ [r] := by
    intro x
    rw [List.mem_cons, List.mem_append, List.mem_singleton, ht.same]
    exact or_comm
  -- Only places in the heap are marked on the walk. What is outside has no children, so it does not
  -- matter there how often it is arrived at.
  by_cases hlt : r < h.size
  · have hnew : met.contains r = false := by
      simpa using mt (hmet r hlt).1 hr
    refine ⟨hsame, r :: met, fun x hx => ?_, ?_⟩
    · rw [List.mem_cons, List.mem_cons, hmet x hx]
    · rw [harrivals, Heap.arrivalsFrom, dif_pos ⟨hlt, hnew⟩, List.append_assoc]
      rfl
  · refine ⟨hsame, met, fun x hx => ?_, ?_⟩
    · have hne : x ≠ r := fun heq => hlt (heq ▸ hx)
      rw [List.mem_cons, hmet x hx]
      exact ⟨.inr, fun hor => hor.resolve_left hne⟩
    · rw [harrivals, Heap.arrivalsFrom, dif_neg fun hnew => hlt hnew.1, List.append_assoc,
        children_eq_nil (Nat.le_of_not_lt hlt)]
      rfl

/-- An object that is met after it has been written arrives twice. -/
theorem shared (ht : Track reg h all written seen (r :: pending)) (hr : r ∈ written) :
    1 < all.count r := by
  rcases (ht.again hr).arrivals with ⟨met, -, harrivals⟩
  have hseen : 0 < seen.count r := List.count_pos_iff.2 ((ht.same r).1 hr)
  rw [harrivals, List.count_append, List.count_append, List.count_singleton_self]
  omega

end Track

/-- How many of some objects have not been written. -/
def unwritten (order written : List Ref) : Nat :=
  (order.filter fun r => !written.contains r).length

theorem unwritten_cons_lt {order written : List Ref} {r : Ref} (hr : r ∈ order)
    (hnew : r ∉ written) : unwritten order (r :: written) < unwritten order written :=
  Heap.length_filter_cons_lt hr (by simpa using hnew)

theorem unwritten_le {order written written' : List Ref} (hsub : written ⊆ written') :
    unwritten order written' ≤ unwritten order written := by
  unfold unwritten
  rw [← List.countP_eq_length_filter, ← List.countP_eq_length_filter]
  refine List.countP_mono_left fun x _ hx => ?_
  simp only [Bool.not_eq_true', List.contains_eq_mem, decide_eq_false_iff_not] at hx ⊢
  exact fun hmem => hx (hsub hmem)

/-- With any fuel that is enough, an action puts out this text from here on, shows these objects in
    it, and comes to this progress. -/
structure Writes (reg : Registry) (h : Heap) (all : List Ref) (names : Ref → Option String)
    (enough : Nat) (action : Nat → Action Unit) (seen pending : List Ref) (p : Progress Unit)
    (text : String) (visits : List Visit) (p' : Progress Unit) : Prop where
  events : ∃ events, textOf events = text ∧ ∀ fuel, enough ≤ fuel → action fuel p = (events, p')
  marked : Marked seen visits
  named : ∀ v ∈ visits, v.name = names v.ref
  grows : p.written ⊆ p'.written
  track : Track reg h all p'.written (seen ++ visits.map Visit.ref) pending

namespace Writes

variable {reg : Registry} {h : Heap} {all : List Ref} {names : Ref → Option String}
  {enough : Nat} {action action' : Nat → Action Unit} {seen pending pending' : List Ref}
  {p p' p'' : Progress Unit} {s s' : String} {visits visits' : List Visit}

theorem text (ht : Track reg h all p.written seen pending) (s : String) :
    Writes reg h all names enough (fun _ => .text s) seen pending p s [] p where
  events := ⟨[.text s], by simp [textOf, Event.shown], fun _ _ => rfl⟩
  marked := trivial
  named := by simp
  grows := fun _ hr => hr
  track := by simpa using ht

theorem append (ha : Writes reg h all names enough action seen pending' p s visits p')
    (hb : Writes reg h all names enough action' (seen ++ visits.map Visit.ref) pending p' s' visits'
      p'') :
    Writes reg h all names enough (fun fuel => action fuel ++ action' fuel) seen pending p (s ++ s')
      (visits ++ visits') p'' where
  events := by
    rcases ha.events with ⟨first, hfirst, hact⟩
    rcases hb.events with ⟨second, hsecond, hact'⟩
    refine ⟨first ++ second, by rw [textOf_append, hfirst, hsecond], fun fuel hfuel => ?_⟩
    rw [Action.append_apply, hact fuel hfuel, hact' fuel hfuel]
  marked := ha.marked.append hb.marked
  named := by
    intro v hv
    rcases List.mem_append.1 hv with hv | hv
    · exact ha.named v hv
    · exact hb.named v hv
  grows := fun r hr => hb.grows (ha.grows hr)
  track := by
    rw [List.map_append, ← List.append_assoc]
    exact hb.track

/-- Events around those of an action show their own text around its text. -/
theorem around {front back : List (Event Unit)}
    (ha : Writes reg h all names enough action seen pending p s visits p')
    (hact : ∀ fuel, action' fuel p = (front ++ (action fuel p).1 ++ back, (action fuel p).2)) :
    Writes reg h all names enough action' seen pending p (textOf front ++ s ++ textOf back) visits
      p' :=
  { ha with
    events := by
      rcases ha.events with ⟨events, htext, hgo⟩
      refine ⟨front ++ events ++ back, ?_, fun fuel hfuel => ?_⟩
      · rw [textOf_append, textOf_append, htext]
      · rw [hact fuel, hgo fuel hfuel] }

theorem textThen (ha : Writes reg h all names enough action seen pending p s visits p')
    (front : String) :
    Writes reg h all names enough (fun fuel => .text front ++ action fuel) seen pending p
      (front ++ s) visits p' := by
  have hact : ∀ fuel, (.text front ++ action fuel : Action Unit) p =
      ([.text front] ++ (action fuel p).1 ++ [], (action fuel p).2) := by
    intro fuel
    rw [Action.append_apply, List.append_nil]
    rfl
  simpa [textOf, Event.shown] using ha.around hact

theorem thenText (ha : Writes reg h all names enough action seen pending p s visits p')
    (back : String) :
    Writes reg h all names enough (fun fuel => action fuel ++ .text back) seen pending p
      (s ++ back) visits p' := by
  have hact : ∀ fuel, (action fuel ++ .text back : Action Unit) p =
      ([] ++ (action fuel p).1 ++ [.text back], (action fuel p).2) :=
    fun fuel => Action.append_apply ..
  simpa [textOf, Event.shown] using ha.around hact

/-- Words with a filter that lets everything through are not seen. -/
theorem exit (ha : Writes reg h all names enough action seen pending p s visits p') (r : Ref) :
    Writes reg h all names enough (fun fuel => action fuel ++ .exit .all h r) seen pending p s
      visits p' := by
  have hact : ∀ fuel, (action fuel ++ .exit .all h r : Action Unit) p =
      ([] ++ (action fuel p).1 ++ [.exited r ()], (action fuel p).2) :=
    fun fuel => Action.append_apply ..
  simpa [textOf, Event.shown] using ha.around hact

theorem ifEntered (ha : Writes reg h all names enough action seen pending p s visits p') (r : Ref)
    (no : Nat → Action Unit) :
    Writes reg h all names enough (fun fuel => .ifEntered .all h r (action fuel) (no fuel)) seen
      pending p s visits p' := by
  have hact : ∀ fuel, Action.ifEntered .all h r (action fuel) (no fuel) p =
      ([.entered r true ()] ++ (action fuel p).1 ++ [], (action fuel p).2) := by
    intro fuel
    rw [List.append_nil]
    rfl
  simpa [textOf, Event.shown] using ha.around hact

/-- Meeting an object for the first time. -/
theorem mark {r : Ref} (ha : Writes reg h all names enough action (seen ++ [r]) pending
      { p with written := r :: p.written } s visits p') (hr : r ∉ seen) :
    Writes reg h all names enough (fun fuel => .mark r ++ action fuel) seen pending p s
      (⟨r, names r, true⟩ :: visits) p' where
  events := by
    rcases ha.events with ⟨events, htext, hact⟩
    refine ⟨events, htext, fun fuel hfuel => ?_⟩
    rw [Action.append_apply]
    exact hact fuel hfuel
  marked := ⟨iff_of_true rfl hr, ha.marked⟩
  named := by
    intro v hv
    rcases List.mem_cons.1 hv with rfl | hv
    · rfl
    · exact ha.named v hv
  grows := fun x hx => ha.grows (List.mem_cons_of_mem _ hx)
  track := by simpa using ha.track

/-- One unit of fuel is spent on the step into an action. -/
theorem succ (ha : Writes reg h all names enough action seen pending p s visits p')
    (hact : ∀ fuel, action' (fuel + 1) p = action fuel p) :
    Writes reg h all names (enough + 1) action' seen pending p s visits p' :=
  { ha with
    events := by
      rcases ha.events with ⟨events, htext, hgo⟩
      refine ⟨events, htext, fun fuel hfuel => ?_⟩
      cases fuel with
      | zero => simp at hfuel
      | succ fuel => rw [hact, hgo fuel (Nat.le_of_succ_le_succ hfuel)] }

/-- The same, put differently. -/
theorem congr (ha : Writes reg h all names enough action seen pending p s visits p')
    (hact : ∀ fuel, action' fuel = action fuel) (hs : s' = s) (hv : visits' = visits) :
    Writes reg h all names enough action' seen pending p s' visits' p' := by
  rw [show action' = action from funext hact, hs, hv]
  exact ha

end Writes

section

variable {reg : Registry} {h : Heap} {all order : List Ref} {names : Ref → Option String}
  {enough bound : Nat}

/-- At the end all arrivals have been met. -/
theorem Writes.refs_eq {action : Nat → Action Unit} {p p' : Progress Unit} {s : String}
    {visits : List Visit}
    (h : Writes reg h all names enough action [] [] p s visits p') :
    visits.map Visit.ref = all := by
  rcases h.track.arrivals with ⟨met, -, harrivals⟩
  rw [harrivals, Heap.arrivalsFrom, List.append_nil]
  rfl

/-- Writing without a filter and without labels. -/
def Setting.plain (reg : Registry) (h : Heap) : Setting Unit :=
  { registry := reg, heap := h, filter := .all }

/-- What is written for an object shows an outline of it, with enough fuel, when at most this many
    objects have not been written. -/
def Expands (reg : Registry) (h : Heap) (all order : List Ref) (names : Ref → Option String)
    (enough bound : Nat) : Prop :=
  ∀ depth r seen pending p, Track reg h all p.written seen (r :: pending) → r ∈ order →
    unwritten order p.written ≤ bound →
    ∃ o : Outline, ∃ p', o.Draws reg h r ∧
      Writes reg h all names enough (fun fuel => (Setting.plain reg h).object names fuel depth r)
        seen pending p (o.text depth) o.visits p'

/-- The lines of a list behind its bracket. -/
theorem elements_writes (hobject : Expands reg h all order names enough bound) (depth : Nat)
    {rs seen pending : List Ref} {p : Progress Unit}
    (ht : Track reg h all p.written seen (rs ++ pending)) (hrs : ∀ r ∈ rs, r ∈ order)
    (hbound : unwritten order p.written ≤ bound) :
    ∃ os : Elements, ∃ p', os.Draws reg h rs ∧
      Writes reg h all names enough
        (fun fuel => (Setting.plain reg h).elements
          ((Setting.plain reg h).object names fuel (depth + 1)) depth true rs)
        seen pending p (os.text (depth + 1) ++ (indentation depth ++ "]")) os.visits p' := by
  -- Along the list: what the first element has written stays written, so the bound holds for the
  -- others as well.
  induction rs generalizing seen p with
  | nil =>
      exact ⟨.nil, p, rfl, (Writes.text ht (indentation depth ++ "]")).congr
        (fun _ => rfl) String.empty_append rfl⟩
  | cons r rs ih =>
      rcases hobject (depth + 1) r seen (rs ++ pending) p ht (hrs r List.mem_cons_self) hbound with
        ⟨o, p₁, hdraws, hone⟩
      rcases ih hone.track (fun x hx => hrs x (List.mem_cons_of_mem _ hx))
        (Nat.le_trans (unwritten_le hone.grows) hbound) with ⟨os, p₂, hdraws', hrest⟩
      have hline := ((((hone.textThen (indentation (depth + 1))).exit r).thenText ",\n").append
        hrest).ifEntered r fun fuel => (Setting.plain reg h).elements
          ((Setting.plain reg h).object names fuel (depth + 1)) depth true rs
      refine ⟨.cons o os, p₂, ⟨r, rs, rfl, hdraws, hdraws'⟩, hline.congr (fun _ => rfl) ?_ rfl⟩
      rw [Elements.text, String.append_assoc]

/-- A list of objects. -/
theorem list_writes (hobject : Expands reg h all order names enough bound) (depth : Nat)
    {rs seen pending : List Ref} {p : Progress Unit}
    (ht : Track reg h all p.written seen (rs ++ pending)) (hrs : ∀ r ∈ rs, r ∈ order)
    (hbound : unwritten order p.written ≤ bound) :
    ∃ os : Elements, ∃ p', os.Draws reg h rs ∧
      Writes reg h all names enough
        (fun fuel => (Setting.plain reg h).elements
          ((Setting.plain reg h).object names fuel (depth + 1)) depth false rs)
        seen pending p
        (match os with
          | .nil => "[]"
          | os => "[\n" ++ os.text (depth + 1) ++ (indentation depth ++ "]"))
        os.visits p' := by
  cases rs with
  | nil => exact ⟨.nil, p, rfl, Writes.text ht "[]"⟩
  | cons r rs =>
      rcases hobject (depth + 1) r seen (rs ++ pending) p ht (hrs r List.mem_cons_self) hbound with
        ⟨o, p₁, hdraws, hone⟩
      rcases elements_writes hobject depth hone.track
        (fun x hx => hrs x (List.mem_cons_of_mem _ hx))
        (Nat.le_trans (unwritten_le hone.grows) hbound) with ⟨os, p₂, hdraws', hrest⟩
      -- Only the first element opens the bracket; behind it the elements are lines.
      have hlines := (((((hone.textThen (indentation (depth + 1))).textThen "[\n").exit r).thenText
        ",\n").append hrest).ifEntered r fun fuel => (Setting.plain reg h).elements
          ((Setting.plain reg h).object names fuel (depth + 1)) depth false rs
      refine ⟨.cons o os, p₂, ⟨r, rs, rfl, hdraws, hdraws'⟩, hlines.congr (fun fuel => ?_) ?_ rfl⟩
      · simp only [Setting.elements, Action.append_assoc]
        rfl
      · simp only [Elements.text, String.append_assoc]

/-- Whether the values of a field are written side by side: they are neither one object nor one list
    of objects. -/
def IsFlat (vs : List Value) : Prop :=
  (∀ r, vs ≠ [.object r]) ∧ ∀ rs, vs ≠ [.objects rs]

/-- What the writer tells apart. -/
theorem flat_cases (vs : List Value) :
    (∃ r, vs = [.object r]) ∨ (∃ rs, vs = [.objects rs]) ∨ IsFlat vs := by
  by_cases hobject : ∃ r, vs = [.object r]
  · exact .inl hobject
  · by_cases hobjects : ∃ rs, vs = [.objects rs]
    · exact .inr (.inl hobjects)
    · exact .inr (.inr ⟨fun r hr => hobject ⟨r, hr⟩, fun rs hrs => hobjects ⟨rs, hrs⟩⟩)

theorem flat_of_scalars {vs : List Value} (hvs : ∀ v ∈ vs, IsScalar v) : IsFlat vs := by
  constructor
  · rintro r rfl
    rcases hvs _ List.mem_cons_self with ⟨type, htype⟩
    cases htype
  · rintro rs rfl
    rcases hvs _ List.mem_cons_self with ⟨type, htype⟩
    cases htype

theorem value_of_flat {σ : Type} (w : Setting σ) (object : Nat → Ref → Action σ) (depth : Nat)
    (field : FieldSpec) {vs : List Value} (hflat : IsFlat vs) :
    w.value object depth field vs = .text (scalarsText field vs) := by
  unfold Setting.value scalarsText
  split
  · exact absurd rfl (hflat.1 _)
  · exact absurd rfl (hflat.2 _)
  · split <;> rfl

theorem unlessRejected_of_flat {σ : Type} (w : Setting σ) {vs : List Value} (hflat : IsFlat vs)
    (action : Action σ) : w.unlessRejected vs action = action := by
  unfold Setting.unlessRejected
  split
  · exact absurd rfl (hflat.1 _)
  · rfl

theorem refs_of_scalars {vs : List Value} (hvs : ∀ v ∈ vs, IsScalar v) :
    vs.flatMap Value.refs = [] := by
  refine List.flatMap_eq_nil_iff.2 fun v hv => ?_
  rcases hvs v hv with ⟨type, htype⟩
  exact Value.refs_of_type htype

/-- The lines of a body. -/
theorem lines_writes (hobject : Expands reg h all order names enough bound) (depth : Nat)
    {fields : List (FieldSpec × List Value)} {seen pending : List Ref} {p : Progress Unit}
    (hshape : ∀ line ∈ fields, IsShaped line.2)
    (ht : Track reg h all p.written seen
      ((fields.flatMap fun line => line.2.flatMap Value.refs) ++ pending))
    (hfields : ∀ r ∈ fields.flatMap fun line => line.2.flatMap Value.refs, r ∈ order)
    (hbound : unwritten order p.written ≤ bound) :
    ∃ ls : Lines, ∃ p', ls.Draws reg h fields ∧
      Writes reg h all names enough
        (fun fuel => .sequence (fields.map fun (field, vs) => (Setting.plain reg h).fieldLine
          ((Setting.plain reg h).object names fuel) depth field vs))
        seen pending p (ls.text depth) ls.visits p' := by
  -- Along the lines, in the order in which their objects are pending.
  induction fields generalizing seen p with
  | nil =>
      refine ⟨.nil, p, rfl, ⟨⟨[], rfl, fun _ _ => rfl⟩, trivial, by simp [Lines.visits],
        fun _ hr => hr, ?_⟩⟩
      simpa [Lines.visits] using ht
  | cons line fields ih =>
      rcases line with ⟨field, vs⟩
      simp only [List.flatMap_cons, List.append_assoc] at ht
      have hshape' := fun line hline => hshape line (List.mem_cons_of_mem (field, vs) hline)
      have hvalue : ∀ r ∈ vs.flatMap Value.refs, r ∈ order :=
        fun r hr => hfields r (List.mem_append_left _ hr)
      have hfields' : ∀ r ∈ fields.flatMap fun line => line.2.flatMap Value.refs, r ∈ order :=
        fun r hr => hfields r (List.mem_append_right _ hr)
      rcases hshape (field, vs) List.mem_cons_self with ⟨r, rfl⟩ | ⟨rs, rfl⟩ | hscalars
      · rcases hobject depth r seen _ p ht (hvalue r List.mem_cons_self) hbound with
          ⟨o, p₁, hdraws, hone⟩
        rcases ih hshape' hone.track hfields' (Nat.le_trans (unwritten_le hone.grows) hbound) with
          ⟨ls, p₂, hdraws', hlines⟩
        have hline := ((((hone.exit r).textThen (indentation depth ++ field.name ++ ": ")).thenText
          ",\n").ifEntered r fun _ => .skip).append hlines
        exact ⟨.object field o ls, p₂, ⟨r, fields, rfl, hdraws, hdraws'⟩,
          hline.congr (fun _ => rfl) rfl rfl⟩
      · simp only [List.flatMap_cons, List.flatMap_nil, List.append_nil, Value.refs] at ht hvalue
        rcases list_writes hobject depth ht hvalue hbound with ⟨os, p₁, hdraws, hlist⟩
        rcases ih hshape' hlist.track hfields' (Nat.le_trans (unwritten_le hlist.grows) hbound)
          with ⟨ls, p₂, hdraws', hlines⟩
        have hline := ((hlist.textThen (indentation depth ++ field.name ++ ": ")).thenText
          ",\n").append hlines
        refine ⟨.objects field os ls, p₂, ⟨rs, fields, rfl, hdraws, hdraws'⟩,
          hline.congr (fun _ => rfl) ?_ rfl⟩
        cases os <;> rfl
      · simp only [refs_of_scalars hscalars, List.nil_append] at ht
        rcases ih hshape' ht hfields' hbound with ⟨ls, p₂, hdraws', hlines⟩
        have hline := ((hlines.textThen ",\n").textThen (scalarsText field vs)).textThen
          (indentation depth ++ field.name ++ ": ")
        refine ⟨.scalars field vs ls, p₂, ⟨fields, rfl, hscalars, hdraws'⟩,
          hline.congr (fun fuel => ?_) ?_ rfl⟩
        · have hflat := flat_of_scalars hscalars
          simp only [List.map_cons, Action.sequence, Setting.fieldLine,
            value_of_flat _ _ depth field hflat, unlessRejected_of_flat _ hflat,
            Action.append_assoc]
        · simp only [Lines.text, String.append_assoc]

theorem children_eq_writtenFields (r : Ref) :
    h.children reg.visibleOf r =
      (writtenFields reg (h.get r)).flatMap fun line => line.2.flatMap Value.refs := by
  unfold Heap.children writtenFields
  induction reg.visibleOf (h.get r) with
  | nil => rfl
  | cons field fields ih =>
      rw [List.flatMap_cons, List.filterMap_cons, ih]
      cases (h.get r).fetch? field with
      | none => rfl
      | some vs => simp

theorem shape_of_writtenFields {i : Instance} (hbuilt : i.IsBuilt (reg.visibleOf i)) :
    ∀ line ∈ writtenFields reg i, IsShaped line.2 := by
  intro line hline
  rcases List.mem_filterMap.1 hline with ⟨field, hfield, hfetch⟩
  rcases Option.map_eq_some_iff.1 hfetch with ⟨vs, hvs, rfl⟩
  rcases Option.bind_eq_some_iff.1 hvs with ⟨content, hcontent, hfetched⟩
  rcases hbuilt field hfield with ⟨hkind, hkept⟩
  exact shape_of_kept hkind (hkept content hcontent) hfetched

theorem full_of_nil {σ : Type} {w : Setting σ} {r : Ref}
    (hfields : writtenFields w.registry (w.heap.get r) = []) (object : Nat → Ref → Action σ)
    (depth : Nat) (name : Option String) :
    w.full object depth r name =
      .mark r ++ (.text (header (w.heap.get r).typeName name ++ " \x7b\x7d") ++ w.label r) := by
  unfold Setting.full
  simp only [hfields, Action.append_assoc]
  cases name <;> rfl

theorem full_of_cons {σ : Type} {w : Setting σ} {r : Ref} {line : FieldSpec × List Value}
    {fields : List (FieldSpec × List Value)}
    (hfields : writtenFields w.registry (w.heap.get r) = line :: fields)
    (object : Nat → Ref → Action σ) (depth : Nat) (name : Option String) :
    w.full object depth r name =
      .mark r ++ (.text (header (w.heap.get r).typeName name ++ " \x7b") ++ (w.label r ++
        (.text "\n" ++ (.sequence ((line :: fields).map fun (field, vs) =>
          w.fieldLine object (depth + 1) field vs) ++ .text (indentation depth ++ "\x7d"))))) := by
  unfold Setting.full
  simp only [hfields, Action.append_assoc]
  cases name <;> rfl

theorem label_plain (r : Ref) : (Setting.plain reg h).label r = .skip := rfl

/-- An object that has been written is written by name. -/
theorem use_writes (hnamed : ∀ r ∈ order, 1 < all.count r → (names r).isSome = true)
    (depth : Nat) {r : Ref} {seen pending : List Ref} {p : Progress Unit}
    (ht : Track reg h all p.written seen (r :: pending)) (hr : r ∈ order) (hw : r ∈ p.written) :
    ∃ o : Outline, ∃ p', o.Draws reg h r ∧
      Writes reg h all names (enough + 1)
        (fun fuel => (Setting.plain reg h).object names fuel depth r) seen pending p (o.text depth)
        o.visits p' := by
  -- An object that comes again is shared, and what is shared has a name.
  rcases Option.isSome_iff_exists.1 (hnamed r hr (ht.shared hw)) with ⟨name, hname⟩
  refine ⟨.use r name, p, rfl, ⟨⟨[.text ("USE " ++ quote name)], ?_, ?_⟩, ?_, ?_, ?_, ?_⟩⟩
  · simp [textOf, Event.shown, Outline.text]
  · intro fuel hfuel
    cases fuel with
    | zero => simp at hfuel
    | succ fuel =>
        have hcontains : p.written.contains r = true := by simpa using hw
        simp only [Setting.object, hname, hcontains]
        rfl
  · exact ⟨by simpa using (ht.same r).1 hw, trivial⟩
  · simp [Outline.visits, hname]
  · exact fun _ hx => hx
  · exact ht.again hw

/-- What is written for an object, as long as everything that can be met has fields that can be
    written, and has a name if it is met twice. -/
theorem object_expands (hclosed : ∀ r ∈ order, ∀ x ∈ h.children reg.visibleOf r, x ∈ order)
    (hshaped : ∀ r ∈ order, ∀ line ∈ writtenFields reg (h.get r), IsShaped line.2)
    (hnamed : ∀ r ∈ order, 1 < all.count r → (names r).isSome = true) (bound : Nat) :
    Expands reg h all order names (bound + 1) bound := by
  -- The induction is on how many objects have not been written. A body is written only for one of
  -- them, which is marked before its lines, so there is one less of them inside.
  induction bound with
  | zero =>
      intro depth r seen pending p ht hr hbound
      -- Everything has been written.
      have hw : r ∈ p.written := Decidable.byContradiction fun hnew => by
        have hlt := unwritten_cons_lt hr hnew
        omega
      exact use_writes hnamed depth ht hr hw
  | succ bound ih =>
      intro depth r seen pending p ht hr hbound
      by_cases hw : r ∈ p.written
      · exact use_writes hnamed depth ht hr hw
      · have hlt : unwritten order (r :: p.written) ≤ bound := by
          have hlt := unwritten_cons_lt hr hw
          omega
        have hseen : r ∉ seen := fun hmem => hw ((ht.same r).2 hmem)
        have hfirst := ht.first hw
        have hshape := hshaped r hr
        have horder := hclosed r hr
        rw [children_eq_writtenFields] at hfirst horder
        -- One unit of fuel is spent on the way into the body, with a name or without.
        have hobject : ∀ fuel, (Setting.plain reg h).object names (fuel + 1) depth r p =
            (Setting.plain reg h).full ((Setting.plain reg h).object names fuel) depth r (names r)
              p := by
          intro fuel
          have hcontains : p.written.contains r = false := by simpa using hw
          simp only [Setting.object, hcontains]
          cases names r <;> rfl
        cases hfields : writtenFields reg (h.get r) with
        | nil =>
            rw [hfields] at hfirst
            have htext : Writes reg h all names (bound + 1)
                (fun _ => .text (header (h.get r).typeName (names r) ++ " \x7b\x7d"))
                (seen ++ [r]) pending { p with written := r :: p.written }
                (header (h.get r).typeName (names r) ++ " \x7b\x7d") []
                { p with written := r :: p.written } := .text hfirst _
            have hfull := htext.mark hseen
            refine ⟨.full r (h.get r).typeName (names r) .nil, _, ⟨rfl, rfl, hfields⟩,
              hfull.succ fun fuel => ?_⟩
            rw [hobject, full_of_nil (w := .plain reg h) hfields, label_plain, Action.append_skip]
            rfl
        | cons line fields =>
            rw [hfields] at hfirst hshape horder
            rcases lines_writes (p := { p with written := r :: p.written }) ih (depth + 1) hshape
              hfirst horder hlt with ⟨ls, p', hdraws, hlines⟩
            have hfull := (((hlines.thenText (indentation depth ++ "\x7d")).textThen "\n").textThen
              (header (h.get r).typeName (names r) ++ " \x7b")).mark hseen
            have hwhole : Writes reg h all names (bound + 1 + 1)
                (fun fuel => (Setting.plain reg h).object names fuel depth r) seen pending p _ _
                p' :=
              hfull.succ fun fuel => by
                rw [hobject, full_of_cons (w := .plain reg h) hfields, label_plain,
                  Action.skip_append]
                rfl
            refine ⟨.full r (h.get r).typeName (names r) ls, p', ⟨rfl, rfl, hfields ▸ hdraws⟩,
              hwhole.congr (fun _ => rfl) ?_ rfl⟩
            cases ls with
            | nil => cases hdraws
            | scalars | object | objects => simp only [Outline.text, String.append_assoc]

end

section

variable {reg : Registry} {h : Heap} {root : Ref}

/-- The outline of the text of a graph, with the names of its survey. -/
theorem exists_outline
    (hregistered : ∀ r, h.Reaches reg.visibleOf root r →
      reg.contains (h.get r).typeName = true)
    (hshaped : ∀ r, h.Reaches reg.visibleOf root r →
      ∀ line ∈ writtenFields reg (h.get r), IsShaped line.2) :
    ∃ o p, objectText? reg h root = .ok (Outline.text 0 o ++ "\n") ∧ o.Draws reg h root ∧
      Writes reg h (h.arrivals reg.visibleOf [root]) (surveyOf reg h root).name?
        ((surveyOf reg h root).order.length + 1)
        (fun fuel => (Setting.plain reg h).object (surveyOf reg h root).name? fuel 0 root) [] []
        { filter := () } (o.text 0) o.visits p := by
  have hstart : Track reg h (h.arrivals reg.visibleOf [root]) [] [] [root] :=
    ⟨fun _ => Iff.rfl, [], fun _ _ => Iff.rfl, rfl⟩
  have hnamed : ∀ r ∈ (surveyOf reg h root).order,
      1 < (h.arrivals reg.visibleOf [root]).count r →
        ((surveyOf reg h root).name? r).isSome = true :=
    fun r hr hshared => named_of_shared (mem_order_iff.1 hr) hshared
  have hexpands := object_expands
    (fun r hr x hx => mem_order_iff.2 ((mem_order_iff.1 hr).tail hx))
    (fun r hr => hshaped r (mem_order_iff.1 hr)) hnamed (surveyOf reg h root).order.length
  rcases hexpands 0 root [] [] { filter := () } hstart (mem_order_iff.2 .refl)
    (List.length_filter_le _ _) with ⟨o, p, hdraws, hwrites⟩
  refine ⟨o, p, ?_, hdraws, hwrites⟩
  -- The call asks the filter about the root, writes it and ends the line.
  rcases ((hwrites.exit root).thenText "\n").events with ⟨events, htext, hact⟩
  have hevents := hact _ (Nat.le_refl _)
  have hcall : objectCall (Setting.plain reg h) () root =
      (.entered root true () :: events, .ok ()) := by
    have hsurvey : Survey.ofRoots (Setting.plain reg h).registry (Setting.plain reg h).heap [root] =
        .ok (surveyOf reg h root) := ofRoots_eq_ok hregistered
    unfold objectCall
    rw [hsurvey]
    exact congrArg (fun result : List (Event Unit) × Progress Unit =>
      ((.entered root true () :: result.1, .ok ()) : Call Unit Unit)) hevents
  have hshown : textOf (.entered root true () :: events) = textOf events := by
    simp [textOf, Event.shown]
  unfold objectText?
  have hplain : objectCall { registry := reg, heap := h, filter := .all } () root =
      (.entered root true () :: events, .ok ()) := hcall
  simp only [hplain, Except.map, hshown, htext]

/-- The text of a graph whose types are registered and whose fields take values of a kind is that of
    an outline of the graph. The outline shows its objects in the order of the walk through the
    fields that are written, each object in full where it comes first and nowhere else, and every
    other time by the name that stands in its header. More fuel changes nothing, so the writer does
    not end for the want of it. -/
theorem objectText_outline
    (hregistered : ∀ r, h.Reaches reg.visibleOf root r →
      reg.contains (h.get r).typeName = true)
    (hbuilt : ∀ r, h.Reaches reg.visibleOf root r →
      (h.get r).IsBuilt (reg.visibleOf (h.get r))) :
    ∃ o : Outline, objectText? reg h root = .ok (o.text 0 ++ "\n") ∧ o.Draws reg h root ∧
      o.visits.map Visit.ref = h.arrivals reg.visibleOf [root] ∧
      (∀ before v after, o.visits = before ++ v :: after →
        (v.isFull = true ↔ v.ref ∉ before.map Visit.ref)) ∧
      ((o.visits.filter Visit.isFull).map Visit.ref).Nodup ∧
      (∀ r, r ∈ (o.visits.filter Visit.isFull).map Visit.ref ↔ h.Reaches reg.visibleOf root r) ∧
      (∀ v ∈ o.visits, v.isFull = false → ∃ d ∈ o.visits, d.isFull = true ∧ d.ref = v.ref ∧
        d.name = v.name ∧ v.name ≠ none) ∧
      ∀ s fuel, Survey.ofRoots reg h [root] = .ok s → s.order.length < fuel →
        (Setting.plain reg h).object s.name? fuel 0 root { filter := () } =
          (Setting.plain reg h).surveyed s 0 root { filter := () } := by
  rcases exists_outline hregistered fun r hr => shape_of_writtenFields (hbuilt r hr) with
    ⟨o, p, htext, hdraws, hwrites⟩
  have hrefs := hwrites.refs_eq
  have hfull : ∀ r, r ∈ (o.visits.filter Visit.isFull).map Visit.ref ↔
      h.Reaches reg.visibleOf root r := by
    intro r
    rw [hwrites.marked.mem_iff, hrefs, Heap.mem_arrivals_iff]
    simp
  refine ⟨o, htext, hdraws, hrefs, ?_, hwrites.marked.nodup, hfull, ?_, ?_⟩
  · intro before v after hvisits
    have hmarked := hwrites.marked
    rw [hvisits] at hmarked
    simpa using hmarked.isFull_iff
  · intro v hv hshort
    have hreach : h.Reaches reg.visibleOf root v.ref := by
      have hmem : v.ref ∈ o.visits.map Visit.ref := List.mem_map.2 ⟨v, hv, rfl⟩
      rw [hrefs, Heap.mem_arrivals_iff] at hmem
      simpa using hmem
    -- Names belong to objects, so the definition of the object shows the name it is used by.
    rcases List.mem_map.1 ((hfull v.ref).2 hreach) with ⟨d, hd, href⟩
    rw [List.mem_filter] at hd
    refine ⟨d, hd.1, hd.2, href, ?_, o.named v hv hshort⟩
    rw [hwrites.named d hd.1, hwrites.named v hv, href]
  · intro s fuel hs hfuel
    rw [ofRoots_eq_ok hregistered] at hs
    cases hs
    -- The writer gives itself the least fuel that is enough.
    rcases hwrites.events with ⟨events, -, hact⟩
    have hsurveyed := hact _ (Nat.le_refl _)
    rw [Setting.surveyed, hact fuel hfuel]
    exact hsurveyed.symm

end

theorem reaches_ring {r : Ref} (hr : Heap.ring.Reaches Registry.nodes.visibleOf 0 r) :
    r = 0 ∨ r = 1 := by
  have hchildren : ∀ x : Nat, x = 0 ∨ x = 1 →
      ∀ c ∈ Heap.ring.children Registry.nodes.visibleOf x, c = 0 ∨ c = 1 := by
    intro x hx
    rcases hx with rfl | rfl <;> decide
  induction hr with
  | refl => exact .inl rfl
  | tail _ hx ih => exact hchildren _ ih _ hx

theorem objectText_outline_ring :
    (∀ r, Heap.ring.Reaches Registry.nodes.visibleOf 0 r →
      Registry.nodes.contains (Heap.ring.get r).typeName = true) ∧
    (∀ r, Heap.ring.Reaches Registry.nodes.visibleOf 0 r →
      (Heap.ring.get r).IsBuilt (Registry.nodes.visibleOf (Heap.ring.get r))) ∧
    ∃ o : Outline, objectText? .nodes .ring 0 = .ok (o.text 0 ++ "\n") ∧
      o.Draws .nodes .ring 0 ∧ ((o.visits.filter Visit.isFull).map Visit.ref).Nodup ∧
      ∀ r, r ∈ (o.visits.filter Visit.isFull).map Visit.ref ↔ r = 0 ∨ r = 1 := by
  have hregistered : ∀ r, Heap.ring.Reaches Registry.nodes.visibleOf 0 r →
      Registry.nodes.contains (Heap.ring.get r).typeName = true := by
    intro r hr
    rcases reaches_ring hr with rfl | rfl <;> decide
  have hbuilt : ∀ r, Heap.ring.Reaches Registry.nodes.visibleOf 0 r →
      (Heap.ring.get r).IsBuilt (Registry.nodes.visibleOf (Heap.ring.get r)) := by
    intro r hr field hfield
    have hfields : Registry.nodes.visibleOf (Heap.ring.get r) =
        [⟨"next", .object none, false⟩, ⟨"all", .objects (some "Node"), false⟩] := by
      rcases reaches_ring hr with rfl | rfl <;> decide
    rw [hfields] at hfield
    have hcases : field = ⟨"next", .object none, false⟩ ∨
        field = ⟨"all", .objects (some "Node"), false⟩ := by simpa using hfield
    rcases hcases with rfl | rfl
    · refine ⟨trivial, fun content hcontent => ?_⟩
      rcases reaches_ring hr with rfl | rfl
      · cases hcontent
      · rw [← Option.some.inj hcontent]
        exact ⟨0, rfl⟩
    · refine ⟨trivial, fun content hcontent => ?_⟩
      rcases reaches_ring hr with rfl | rfl
      · rw [← Option.some.inj hcontent]
        exact ⟨[1, 0], rfl⟩
      · cases hcontent
  -- Both objects are reached, so both are shown in full.
  have hreaches : ∀ r, Heap.ring.Reaches Registry.nodes.visibleOf 0 r ↔ r = 0 ∨ r = 1 := by
    refine fun r => ⟨reaches_ring, fun hr => ?_⟩
    rcases hr with rfl | rfl
    · exact .refl
    · have hlinked : 1 ∈ Heap.ring.children Registry.nodes.visibleOf 0 := by decide
      exact .single hlinked
  rcases objectText_outline hregistered hbuilt with ⟨o, htext, hdraws, -, -, hnodup, hfull, -⟩
  exact ⟨hregistered, hbuilt, o, htext, hdraws, hnodup, fun r => (hfull r).trans (hreaches r)⟩

end Writer

end GraphText

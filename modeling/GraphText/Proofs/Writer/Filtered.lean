import GraphText.Proofs.Writer.Outputs
import GraphText.Proofs.Writer.Sifted

/-!
# Writing with a filter

Names come from a survey of the whole graph, and a filter decides along the way
what is written. So what is met again on the way is no longer what the survey
has counted: an object may be rejected where it comes first, and accepted where
it comes again, or the other way round. That every object that is written again
has a name is a matter of counting. An object is met once for every time that
an object that is written refers to it, so if no object is written in full
twice, none is met more often than the survey has arrived at it. Whatever the
filter rejects only leaves room. And if none is met more often, then one that
is met again has been counted twice, so it has a name, and is not written in
full twice.

Where a filter is asked and where it is told does not depend on its answers, so
its words come out nested. That an object is written by name only behind its
body is true of graphs without cycles.

## Main definitions

* `unread`, `Room`: what objects that have not been written refer to, and that
  there is room for it.
* `Sifts`: what an action puts out with a filter, and what holds behind it.
* `SiftsAll`: what is to be shown of the objects of a body.

## Theorems

* `Room.first`, `Room.shared`: there is room, so what comes again is shared.
* `object_sifts`: what a filter leaves of an object.
* `whole_shows`: what it leaves of any graph whose root it accepts.
* `object_filtered`: what a call puts out, with any filter.
-/

namespace GraphText.Writer

/-- What the objects that have not been written refer to. -/
def unread (reg : Registry) (h : Heap) (order written : List Ref) : List Ref :=
  (order.filter fun r => !written.contains r).flatMap (h.children reg.visibleOf)

/-- What has been written and what has been seen are the same objects, and with what is pending and
    what may still become so, no object comes more often than it has been counted. -/
structure Room (reg : Registry) (h : Heap) (all order written seen pending : List Ref) : Prop where
  same : ∀ r, r ∈ written ↔ r ∈ seen
  count : ∀ x, seen.count x + pending.count x + (unread reg h order written).count x ≤ all.count x

namespace Room

variable {reg : Registry} {h : Heap} {all order written seen pending : List Ref} {r : Ref}

/-- At the beginning there is just enough. -/
theorem start (reg : Registry) (h : Heap) (root : Ref) :
    Room reg h (h.arrivals reg.visibleOf [root]) (surveyOf reg h root).order [] [] [root] where
  same := fun _ => Iff.rfl
  count := by
    intro x
    have hall := (h.arrivals_perm reg.visibleOf [root]).count_eq x
    have hunread : unread reg h (surveyOf reg h root).order [] =
        (h.preorder reg.visibleOf [root]).flatMap (h.children reg.visibleOf) := by
      simp [unread, surveyOf, Heap.preorder]
    rw [hall, hunread, List.count_append, List.count_nil]
    omega

/-- Passing over an object that is rejected. -/
theorem pass (hroom : Room reg h all order written seen (r :: pending)) :
    Room reg h all order written seen pending where
  same := hroom.same
  count := by
    intro x
    have hcount := hroom.count x
    rw [List.count_cons] at hcount
    omega

/-- Passing over objects that are not written at all. -/
theorem passAll {rs : List Ref} (hroom : Room reg h all order written seen (rs ++ pending)) :
    Room reg h all order written seen pending where
  same := hroom.same
  count := by
    intro x
    have hcount := hroom.count x
    rw [List.count_append] at hcount
    omega

/-- Meeting an object that has been written. -/
theorem again (hroom : Room reg h all order written seen (r :: pending)) (hr : r ∈ written) :
    Room reg h all order written (seen ++ [r]) pending where
  same := by
    intro x
    rw [List.mem_append, List.mem_singleton, hroom.same]
    constructor
    · exact .inl
    · rintro (hx | rfl)
      · exact hx
      · exact (hroom.same x).1 hr
  count := by
    intro x
    have hcount := hroom.count x
    rw [List.count_cons] at hcount
    rw [List.count_append, List.count_singleton]
    omega

/-- Writing an object moves what it refers to. -/
theorem unread_perm (hnodup : order.Nodup) (hr : r ∈ order) (hw : r ∉ written) :
    (unread reg h order written).Perm
      (h.children reg.visibleOf r ++ unread reg h order (r :: written)) := by
  have hsplit : (order.filter fun x => !written.contains x).Perm
      (r :: order.filter fun x => !(r :: written).contains x) := by
    refine (List.perm_ext_iff_of_nodup (hnodup.filter _)
      (List.nodup_cons.2 ⟨by simp, hnodup.filter _⟩)).2 fun x => ?_
    by_cases hx : x = r
    · simp [hx, hr, hw]
    · simp [hx]
  exact hsplit.flatMap_right _

/-- Meeting an object that has not been written. -/
theorem first (hroom : Room reg h all order written seen (r :: pending)) (hnodup : order.Nodup)
    (hr : r ∈ order) (hw : r ∉ written) :
    Room reg h all order (r :: written) (seen ++ [r]) (h.children reg.visibleOf r ++ pending) where
  same := by
    intro x
    rw [List.mem_cons, List.mem_append, List.mem_singleton, hroom.same]
    exact or_comm
  count := by
    intro x
    have hcount := hroom.count x
    rw [(unread_perm hnodup hr hw).count_eq, List.count_append, List.count_cons] at hcount
    rw [List.count_append, List.count_append, List.count_singleton]
    omega

/-- An object that is met after it has been written has been counted twice. -/
theorem shared (hroom : Room reg h all order written seen (r :: pending)) (hr : r ∈ written) :
    1 < all.count r := by
  have hseen := List.count_pos_iff.2 ((hroom.same r).1 hr)
  have hcount := hroom.count r
  rw [List.count_cons_self] at hcount
  omega

end Room

section

variable {σ : Type} {w : Setting σ} {all order : List Ref} {names : Ref → Option String}

/-- An action puts out this text, has these words with the filter and shows these objects, and
    leaves room for those that are still pending. -/
structure Sifts (w : Setting σ) (all order : List Ref) (names : Ref → Option String)
    (action : Action σ) (p : Progress σ) (seen pending : List Ref) (text : String)
    (words : List Word) (visits : List Visit) : Prop where
  shown : textOf (action p).1 = text
  spoken : wordsOf (action p).1 = words
  heard : Heard w.filter w.heap p.filter (action p).1 (action p).2.filter
  unlabelled : w.labels = false → ∀ r, .label r ∉ (action p).1
  marked : Marked seen visits
  named : ∀ v ∈ visits, v.name = names v.ref
  grows : p.written ⊆ (action p).2.written
  room : Room w.registry w.heap all order (action p).2.written (seen ++ visits.map Visit.ref)
    pending

namespace Sifts

variable {action action' : Action σ} {p : Progress σ} {seen pending pending' : List Ref}
  {s s' : String} {words words' : List Word} {visits visits' : List Visit} {r : Ref}

/-- An action that shows no object. -/
theorem leaf (hroom : Room w.registry w.heap all order p.written seen pending)
    (hwritten : (action p).2.written = p.written)
    (hheard : Heard w.filter w.heap p.filter (action p).1 (action p).2.filter)
    (hunlabelled : ∀ r, .label r ∉ (action p).1) (hshown : textOf (action p).1 = s)
    (hspoken : wordsOf (action p).1 = words) :
    Sifts w all order names action p seen pending s words [] where
  shown := hshown
  spoken := hspoken
  heard := hheard
  unlabelled := fun _ => hunlabelled
  marked := trivial
  named := by simp
  grows := hwritten ▸ List.Subset.refl _
  room := by
    rw [hwritten, List.map_nil, List.append_nil]
    exact hroom

theorem text (hroom : Room w.registry w.heap all order p.written seen pending) (s : String) :
    Sifts w all order names (.text s) p seen pending s [] [] :=
  leaf hroom rfl rfl (by simp [Action.text]) (by simp [textOf, Action.text, Event.shown]) rfl

theorem skip (hroom : Room w.registry w.heap all order p.written seen pending) :
    Sifts w all order names .skip p seen pending "" [] [] :=
  leaf hroom rfl rfl (by simp [Action.skip]) rfl rfl

theorem append (ha : Sifts w all order names action p seen pending' s words visits)
    (hb : Sifts w all order names action' (action p).2 (seen ++ visits.map Visit.ref) pending s'
      words' visits') :
    Sifts w all order names (action ++ action') p seen pending (s ++ s') (words ++ words')
      (visits ++ visits') where
  shown := by rw [Action.append_apply, textOf_append, ha.shown, hb.shown]
  spoken := by
    rw [← ha.spoken, ← hb.spoken]
    exact List.filterMap_append
  heard := ha.heard.append hb.heard
  unlabelled := by
    intro hlabels r hr
    rcases List.mem_append.1 hr with hr | hr
    · exact ha.unlabelled hlabels r hr
    · exact hb.unlabelled hlabels r hr
  marked := ha.marked.append hb.marked
  named := by
    intro v hv
    rcases List.mem_append.1 hv with hv | hv
    · exact ha.named v hv
    · exact hb.named v hv
  grows := fun x hx => hb.grows (ha.grows hx)
  room := by
    rw [List.map_append, ← List.append_assoc]
    exact hb.room

/-- Some events, of which none shows an object, and then an action. -/
theorem led {p' : Progress σ} (events : List (Event σ))
    (ha : Sifts w all order names action p' seen pending s words visits)
    (happly : action' p = (events ++ (action p').1, (action p').2))
    (hwritten : p'.written = p.written)
    (hheard : Heard w.filter w.heap p.filter events p'.filter)
    (hunlabelled : w.labels = false → ∀ r, .label r ∉ events) :
    Sifts w all order names action' p seen pending (textOf events ++ s) (wordsOf events ++ words)
      visits where
  shown := by rw [happly, textOf_append, ha.shown]
  spoken := by
    rw [happly, ← ha.spoken]
    exact List.filterMap_append
  heard := by
    rw [happly]
    exact hheard.append ha.heard
  unlabelled := by
    intro hlabels r hr
    rw [happly] at hr
    rcases List.mem_append.1 hr with hr | hr
    · exact hunlabelled hlabels r hr
    · exact ha.unlabelled hlabels r hr
  marked := ha.marked
  named := ha.named
  grows := by
    rw [happly, ← hwritten]
    exact ha.grows
  room := by
    rw [happly]
    exact ha.room

/-- What counts is what the action does here. -/
theorem of_apply (ha : Sifts w all order names action p seen pending s words visits)
    (happly : action' p = action p) :
    Sifts w all order names action' p seen pending s words visits where
  shown := happly ▸ ha.shown
  spoken := happly ▸ ha.spoken
  heard := happly ▸ ha.heard
  unlabelled := happly ▸ ha.unlabelled
  marked := ha.marked
  named := ha.named
  grows := happly ▸ ha.grows
  room := happly ▸ ha.room

/-- The same, put differently. -/
theorem congr (ha : Sifts w all order names action p seen pending s words visits) (hs : s' = s)
    (hwords : words' = words) (hvisits : visits' = visits) :
    Sifts w all order names action p seen pending s' words' visits' := by
  rw [hs, hwords, hvisits]
  exact ha

theorem textThen (ha : Sifts w all order names action p seen pending s words visits)
    (front : String) :
    Sifts w all order names (.text front ++ action) p seen pending (front ++ s) words visits :=
  (ha.led (p := p) [.text front] rfl rfl rfl (by simp)).congr (by simp [textOf, Event.shown]) rfl
    rfl

/-- Labels are not a part of the text. -/
theorem labelThen (ha : Sifts w all order names action p seen pending s words visits) (r : Ref) :
    Sifts w all order names (w.label r ++ action) p seen pending s words visits := by
  unfold Setting.label
  split
  next hlabels =>
    exact (ha.led (p := p) [.label r] rfl rfl rfl (by simp [hlabels])).congr
      (by simp [textOf, Event.shown]) rfl rfl
  · exact ha

/-- A question to the filter, and what is done by its answer. -/
theorem ask {answer : Bool} {state : σ} {yes no : Action σ}
    (hasked : w.filter.enter p.filter (w.heap.get r) = (answer, state))
    (ha : Sifts w all order names (if answer then yes else no) { p with filter := state } seen
      pending s words visits) :
    Sifts w all order names (.ifEntered w.filter w.heap r yes no) p seen pending s
      (.enter r answer :: words) visits := by
  have happly : Action.ifEntered w.filter w.heap r yes no p =
      ([.entered r answer state] ++ ((if answer then yes else no) { p with filter := state }).1,
        ((if answer then yes else no) { p with filter := state }).2) := by
    simp only [Action.ifEntered, hasked]
    rfl
  exact (ha.led (p := p) _ happly rfl ⟨hasked, rfl⟩ (by simp)).congr (by simp [textOf, Event.shown])
    rfl rfl

theorem thenText (ha : Sifts w all order names action p seen pending s words visits)
    (back : String) :
    Sifts w all order names (action ++ .text back) p seen pending (s ++ back) words visits := by
  simpa using ha.append (.text ha.room back)

/-- Behind an object the filter is told. -/
theorem thenExit (ha : Sifts w all order names action p seen pending s words visits) (r : Ref) :
    Sifts w all order names (action ++ .exit w.filter w.heap r) p seen pending s
      (words ++ [.exit r]) visits := by
  have hexit : Sifts w all order names (.exit w.filter w.heap r) (action p).2
      (seen ++ visits.map Visit.ref) pending "" [.exit r] [] :=
    leaf ha.room rfl ⟨rfl, rfl⟩ (by simp [Action.exit]) rfl rfl
  simpa using ha.append hexit

/-- Meeting an object for the first time. -/
theorem mark (ha : Sifts w all order names action { p with written := r :: p.written } (seen ++ [r])
      pending s words visits) (hr : r ∉ seen) :
    Sifts w all order names (.mark r ++ action) p seen pending s words
      (⟨r, names r, true⟩ :: visits) where
  shown := ha.shown
  spoken := ha.spoken
  heard := ha.heard
  unlabelled := ha.unlabelled
  marked := ⟨iff_of_true rfl hr, ha.marked⟩
  named := by
    intro v hv
    rcases List.mem_cons.1 hv with rfl | hv
    · rfl
    · exact ha.named v hv
  grows := fun x hx => ha.grows (List.mem_cons_of_mem _ hx)
  room := by
    have hroom := ha.room
    rw [List.append_assoc] at hroom
    exact hroom

end Sifts

/-- What is written for an object shows a sifted outline of it, when less than so many objects have
    not been written. -/
def SiftsAll (w : Setting σ) (all order : List Ref) (names : Ref → Option String)
    (object : Nat → Ref → Action σ) (bound : Nat) : Prop :=
  ∀ depth r seen pending p, Room w.registry w.heap all order p.written seen (r :: pending) →
    r ∈ order → unwritten order p.written < bound →
    ∃ t : Sifted, t.Shows w.registry w.heap r ∧
      Sifts w all order names (object depth r) p seen pending (t.text depth) t.inside
        t.outline.visits

theorem elements_cons (object : Ref → Action σ) (depth : Nat) (begun : Bool) (r : Ref)
    (rs : List Ref) :
    w.elements object depth begun (r :: rs) =
      .ifEntered w.filter w.heap r
        ((if begun then .skip else .text "[\n") ++ (.text (indentation (depth + 1)) ++ object r ++
          .exit w.filter w.heap r ++ .text ",\n" ++ w.elements object depth true rs))
        (w.elements object depth begun rs) := by
  cases begun <;> simp only [Setting.elements, Action.append_assoc]

section

variable {object : Nat → Ref → Action σ} {bound : Nat} {seen pending : List Ref} {p : Progress σ}

/-- The rest of a list of objects. -/
theorem elements_sifts (hobject : SiftsAll w all order names object bound) (depth : Nat)
    (begun : Bool) {rs : List Ref}
    (hroom : Room w.registry w.heap all order p.written seen (rs ++ pending))
    (hrs : ∀ r ∈ rs, r ∈ order) (hbound : unwritten order p.written < bound) :
    ∃ ts : SiftedElements, ts.Shows w.registry w.heap rs ∧
      Sifts w all order names (w.elements (object (depth + 1)) depth begun rs) p seen pending
        (ts.text depth begun) ts.words ts.elements.visits := by
  -- Along the list, of which the first element that is accepted opens the bracket.
  induction rs generalizing seen p begun with
  | nil =>
      refine ⟨.nil, rfl, ?_⟩
      cases begun with
      | true => exact .text hroom _
      | false => exact .text hroom _
  | cons r rs ih =>
      have hrs' : ∀ x ∈ rs, x ∈ order := fun x hx => hrs x (List.mem_cons_of_mem _ hx)
      rw [elements_cons]
      rcases hasked : w.filter.enter p.filter (w.heap.get r) with ⟨answer, state⟩
      cases answer with
      | false =>
          rcases ih (p := { p with filter := state }) begun hroom.pass hrs' hbound with
            ⟨ts, hshows, hrest⟩
          refine ⟨.rejected r ts, ⟨rs, rfl, hshows⟩, (Sifts.ask hasked hrest).congr ?_ rfl rfl⟩
          cases begun <;> rfl
      | true =>
          rcases hobject (depth + 1) r seen (rs ++ pending) { p with filter := state } hroom
            (hrs r List.mem_cons_self) hbound with ⟨t, hshows, hone⟩
          have hline := ((hone.textThen (indentation (depth + 1))).thenExit r).thenText ",\n"
          rcases ih true hline.room hrs' (Nat.lt_of_le_of_lt (unwritten_le hline.grows) hbound) with
            ⟨ts, hshows', hrest⟩
          have hlines := hline.append hrest
          refine ⟨.cons t ts, ⟨r, rs, rfl, hshows, hshows'⟩, ?_⟩
          have hwords : (SiftedElements.cons t ts).words =
              .enter r true :: (t.inside ++ [.exit r] ++ ts.words) := by
            rw [SiftedElements.words, Sifted.ref_of_shows hshows, List.append_assoc]
            rfl
          cases begun with
          | true =>
              refine (Sifts.ask hasked hlines).congr ?_ hwords rfl
              rw [SiftedElements.text]
              simp
          | false =>
              refine (Sifts.ask hasked (hlines.textThen "[\n")).congr ?_ hwords rfl
              rw [SiftedElements.text]
              simp [String.append_assoc]

/-- The fields of a body. -/
theorem lines_sifts (hobject : SiftsAll w all order names object bound) (depth : Nat)
    {fields : List (FieldSpec × List Value)}
    (hroom : Room w.registry w.heap all order p.written seen
      ((fields.flatMap fun line => line.2.flatMap Value.refs) ++ pending))
    (hfields : ∀ r ∈ fields.flatMap fun line => line.2.flatMap Value.refs, r ∈ order)
    (hbound : unwritten order p.written < bound) :
    ∃ ls : SiftedLines, ls.Shows w.registry w.heap fields ∧
      Sifts w all order names
        (.sequence (fields.map fun (field, vs) => w.fieldLine object depth field vs)) p seen pending
        (ls.text depth) ls.words ls.lines.visits := by
  -- Along the fields, in the order in which their objects are pending.
  induction fields generalizing seen p with
  | nil => exact ⟨.nil, rfl, .skip hroom⟩
  | cons line fields ih =>
      rcases line with ⟨field, vs⟩
      simp only [List.flatMap_cons, List.append_assoc] at hroom
      have hvalue : ∀ r ∈ vs.flatMap Value.refs, r ∈ order :=
        fun r hr => hfields r (List.mem_append_left _ hr)
      have hfields' : ∀ r ∈ fields.flatMap fun line => line.2.flatMap Value.refs, r ∈ order :=
        fun r hr => hfields r (List.mem_append_right _ hr)
      rcases flat_cases vs with ⟨r, rfl⟩ | ⟨rs, rfl⟩ | hflat
      · rcases hasked : w.filter.enter p.filter (w.heap.get r) with ⟨answer, state⟩
        cases answer with
        | false =>
            have hline : Sifts w all order names (w.fieldLine object depth field [.object r]) p seen
                ((fields.flatMap fun line => line.2.flatMap Value.refs) ++ pending) ""
                [.enter r false] [] :=
              .ask hasked (.skip hroom.pass)
            rcases ih hline.room hfields'
              (Nat.lt_of_le_of_lt (unwritten_le hline.grows) hbound) with ⟨ls, hshows, hlines⟩
            exact ⟨.rejected field r ls, ⟨fields, rfl, hshows⟩,
              (hline.append hlines).congr String.empty_append.symm rfl rfl⟩
        | true =>
            rcases hobject depth r seen _ { p with filter := state } hroom
              (hvalue r List.mem_cons_self) hbound with ⟨t, hshows, hone⟩
            have hline : Sifts w all order names (w.fieldLine object depth field [.object r]) p seen
                _ _ _ _ :=
              .ask hasked (((hone.thenExit r).textThen
                (indentation depth ++ field.name ++ ": ")).thenText ",\n")
            rcases ih hline.room hfields'
              (Nat.lt_of_le_of_lt (unwritten_le hline.grows) hbound) with ⟨ls, hshows', hlines⟩
            refine ⟨.object field t ls, ⟨r, fields, rfl, hshows, hshows'⟩,
              (hline.append hlines).congr rfl ?_ rfl⟩
            rw [SiftedLines.words, Sifted.ref_of_shows hshows]
            simp
      · simp only [List.flatMap_cons, List.flatMap_nil, List.append_nil, Value.refs] at hroom hvalue
        rcases elements_sifts hobject depth false hroom hvalue hbound with ⟨ts, hshows, hlist⟩
        have hline : Sifts w all order names (w.fieldLine object depth field [.objects rs]) p seen
            _ _ _ _ :=
          (hlist.textThen (indentation depth ++ field.name ++ ": ")).thenText ",\n"
        rcases ih hline.room hfields'
          (Nat.lt_of_le_of_lt (unwritten_le hline.grows) hbound) with ⟨ls, hshows', hlines⟩
        exact ⟨.objects field ts ls, ⟨rs, fields, rfl, hshows, hshows'⟩,
          (hline.append hlines).congr rfl rfl rfl⟩
      · -- The walk arrives at whatever stands among the scalars, and the writer does not.
        have hline : Sifts w all order names (w.fieldLine object depth field vs) p seen
            ((fields.flatMap fun line => line.2.flatMap Value.refs) ++ pending)
            (indentation depth ++ field.name ++ ": " ++ scalarsText field vs ++ ",\n") [] [] := by
          rw [Setting.fieldLine, unlessRejected_of_flat _ hflat,
            value_of_flat _ _ depth field hflat]
          exact ((Sifts.text hroom.passAll _).textThen _).thenText _
        rcases ih hline.room hfields'
          (Nat.lt_of_le_of_lt (unwritten_le hline.grows) hbound) with ⟨ls, hshows, hlines⟩
        exact ⟨.scalars field vs ls, ⟨fields, rfl, hflat, hshows⟩,
          (hline.append hlines).congr rfl rfl rfl⟩

end

/-- An object that has been written is written by name. -/
theorem use_sifts (hnamed : ∀ r ∈ order, 1 < all.count r → (names r).isSome = true)
    {r : Ref} {seen pending : List Ref} {p : Progress σ}
    (hroom : Room w.registry w.heap all order p.written seen (r :: pending)) (hr : r ∈ order)
    (hw : r ∈ p.written) (fuel depth : Nat) :
    ∃ t : Sifted, t.Shows w.registry w.heap r ∧
      Sifts w all order names (w.object names (fuel + 1) depth r) p seen pending (t.text depth)
        t.inside t.outline.visits := by
  -- An object that comes again has been counted twice, and what is shared has a name.
  rcases Option.isSome_iff_exists.1 (hnamed r hr (hroom.shared hw)) with ⟨name, hname⟩
  have hcontains : p.written.contains r = true := by simpa using hw
  have hobject : w.object names (fuel + 1) depth r p =
      (.text ("USE " ++ quote name) : Action σ) p := by
    simp only [Setting.object, hname, hcontains]
  refine ⟨.use r name, rfl, ?_, ?_, ?_, ?_, ?_, ?_, ?_, ?_⟩
  · rw [hobject]
    simp [textOf, Action.text, Event.shown, Sifted.text]
  · rw [hobject]
    rfl
  · rw [hobject]
    rfl
  · rw [hobject]
    simp [Action.text]
  · exact ⟨by simpa using (hroom.same r).1 hw, trivial⟩
  · simp [Sifted.outline, Outline.visits, hname]
  · rw [hobject]
    exact List.Subset.refl _
  · rw [hobject]
    exact hroom.again hw

/-- What is written for an object, as long as everything that can be met has a name if it is counted
    twice. -/
theorem object_sifts (hnodup : order.Nodup)
    (hclosed : ∀ r ∈ order, ∀ x ∈ w.heap.children w.registry.visibleOf r, x ∈ order)
    (hnamed : ∀ r ∈ order, 1 < all.count r → (names r).isSome = true) (fuel : Nat) :
    SiftsAll w all order names (w.object names fuel) fuel := by
  -- The induction is on the fuel, of which there is always more than there are objects that have
  -- not been written. A body is written only for one of them.
  induction fuel with
  | zero => exact fun _ _ _ _ _ _ _ hbound => absurd hbound (Nat.not_lt_zero _)
  | succ fuel ih =>
      intro depth r seen pending p hroom hr hbound
      by_cases hw : r ∈ p.written
      · exact use_sifts hnamed hroom hr hw fuel depth
      · have hlt : unwritten order (r :: p.written) < fuel := by
          have hlt := unwritten_cons_lt hr hw
          omega
        have hseen : r ∉ seen := fun hmem => hw ((hroom.same r).2 hmem)
        have hfirst := hroom.first hnodup hr hw
        have horder := hclosed r hr
        rw [children_eq_writtenFields] at hfirst horder
        have hobject : w.object names (fuel + 1) depth r p =
            w.full (w.object names fuel) depth r (names r) p := by
          have hcontains : p.written.contains r = false := by simpa using hw
          simp only [Setting.object, hcontains]
          cases names r <;> rfl
        cases hfields : writtenFields w.registry (w.heap.get r) with
        | nil =>
            rw [hfields] at hfirst
            rw [full_of_nil hfields, ← Action.append_skip (w.label r)] at hobject
            have hbody : Sifts w all order names .skip { p with written := r :: p.written }
                (seen ++ [r]) pending "" [] [] := .skip hfirst
            have hfull := ((hbody.labelThen r).textThen
              (header (w.heap.get r).typeName (names r) ++ " \x7b\x7d")).mark hseen
            refine ⟨.full r (w.heap.get r).typeName (names r) .nil, ⟨rfl, rfl, hfields⟩,
              (hfull.of_apply hobject).congr ?_ rfl rfl⟩
            exact String.append_empty.symm
        | cons line fields =>
            rw [hfields] at hfirst horder
            rw [full_of_cons hfields] at hobject
            rcases lines_sifts (p := { p with written := r :: p.written }) ih (depth + 1) hfirst
              horder hlt with ⟨ls, hshows, hlines⟩
            have hbody := (hlines.thenText (indentation depth ++ "\x7d")).textThen "\n"
            have hfull := ((hbody.labelThen r).textThen
              (header (w.heap.get r).typeName (names r) ++ " \x7b")).mark hseen
            refine ⟨.full r (w.heap.get r).typeName (names r) ls, ⟨rfl, rfl, hfields ▸ hshows⟩,
              (hfull.of_apply hobject).congr ?_ rfl rfl⟩
            cases ls with
            | nil => cases hshows
            | scalars | object | rejected | objects =>
                simp only [Sifted.text, String.append_assoc]

/-- At the end no object has been shown more often than it has been counted. -/
theorem Sifts.count_le {action : Action σ} {p : Progress σ} {s : String} {words : List Word}
    {visits : List Visit} (h : Sifts w all order names action p [] [] s words visits) (r : Ref) :
    (visits.map Visit.ref).count r ≤ all.count r := by
  have hcount := h.room.count r
  rw [List.nil_append] at hcount
  omega

end

section

variable {σ : Type} {w : Setting σ} {root : Ref}

/-- An output without a limit takes everything, and the filter is in the state that the events
    say. -/
theorem perform_of_unlimited {f : Filter σ} {h : Heap} {events : List (Event σ)} {s : Sink}
    {before after : σ} (hlimit : s.limit = none) (hheard : Heard f h before events after) :
    ∃ s' : Sink, s.perform before events = (s', after, true) ∧
      ((∀ r, .label r ∉ events) → s'.bytes = s.bytes ++ (textOf events).toByteArray) := by
  induction events generalizing s before with
  | nil =>
      cases hheard
      exact ⟨s, rfl, fun _ => by simp [textOf]⟩
  | cons event events ih =>
      have hrest : (∀ r, .label r ∉ event :: events) → ∀ r, .label r ∉ events :=
        fun hnone r hr => hnone r (List.mem_cons_of_mem _ hr)
      -- Texts and labels are put out, and only what is said to the filter changes its state.
      cases event with
      | text text =>
          rcases ih (s := { s with bytes := s.bytes ++ text.toByteArray }) hlimit hheard with
            ⟨s', hperform, hbytes⟩
          refine ⟨s', ?_, fun hnone => ?_⟩
          · rw [Sink.perform, write_of_unlimited hlimit]
            exact hperform
          · rw [hbytes (hrest hnone), ByteArray.append_assoc, ← String.toByteArray_append]
            simp [textOf, Event.shown]
      | label r =>
          rcases ih (s := { (s.labelOf r).1 with
            bytes := (s.labelOf r).1.bytes ++ (s.labelOf r).2.toByteArray }) hlimit hheard with
            ⟨s', hperform, -⟩
          refine ⟨s', ?_, fun hnone => absurd List.mem_cons_self (hnone r)⟩
          rw [Sink.perform]
          simp only [write_of_unlimited (s := (s.labelOf r).1) hlimit]
          exact hperform
      | entered r accepted state =>
          rcases ih hlimit hheard.2 with ⟨s', hperform, hbytes⟩
          refine ⟨s', hperform, fun hnone => ?_⟩
          rw [hbytes (hrest hnone)]
          simp [textOf, Event.shown]
      | exited r state =>
          rcases ih hlimit hheard.2 with ⟨s', hperform, hbytes⟩
          refine ⟨s', hperform, fun hnone => ?_⟩
          rw [hbytes (hrest hnone)]
          simp [textOf, Event.shown]

/-- What a filter leaves of a graph, with the names of the survey. -/
theorem exists_sifted (w : Setting σ) (root : Ref) (state : σ) :
    ∃ t : Sifted, t.Shows w.registry w.heap root ∧
      Sifts w (w.heap.arrivals w.registry.visibleOf [root])
        (surveyOf w.registry w.heap root).order (surveyOf w.registry w.heap root).name?
        (w.surveyed (surveyOf w.registry w.heap root) 0 root) { filter := state } [] [] (t.text 0)
        t.inside t.outline.visits := by
  have hall : SiftsAll w (w.heap.arrivals w.registry.visibleOf [root])
      (surveyOf w.registry w.heap root).order (surveyOf w.registry w.heap root).name?
      (w.surveyed (surveyOf w.registry w.heap root))
      ((surveyOf w.registry w.heap root).order.length + 1) :=
    object_sifts nodup_order (fun r hr x hx => mem_order_iff.2 ((mem_order_iff.1 hr).tail hx))
      (fun r hr hshared => named_of_shared (mem_order_iff.1 hr) hshared) _
  exact hall 0 root [] [] { filter := state } (.start w.registry w.heap root)
    (mem_order_iff.2 .refl) (Nat.lt_succ_of_le (List.length_filter_le _ _))

/-- Writing an object by itself, as one action. -/
def Setting.whole (w : Setting σ) (root : Ref) : Action σ :=
  .ifEntered w.filter w.heap root
    (w.surveyed (surveyOf w.registry w.heap root) 0 root ++ .exit w.filter w.heap root ++
      .text "\n")
    .skip

theorem objectCall_eq
    (hregistered : ∀ r, w.heap.Reaches w.registry.visibleOf root r →
      w.registry.contains (w.heap.get r).typeName = true)
    (state : σ) : objectCall w state root = ((w.whole root { filter := state }).1, .ok ()) := by
  unfold objectCall Setting.whole Action.ifEntered
  rcases w.filter.enter state (w.heap.get root) with ⟨answer, asked⟩
  cases answer with
  | false => rfl
  | true =>
      simp only [ofRoots_eq_ok hregistered]
      rfl

/-- With any filter the root is rejected, or there is a sifted outline of the graph. -/
theorem whole_shows (w : Setting σ) (root : Ref) (state : σ) :
    Sifts w (w.heap.arrivals w.registry.visibleOf [root]) (surveyOf w.registry w.heap root).order
        (surveyOf w.registry w.heap root).name? (w.whole root) { filter := state } [] [] ""
        [.enter root false] [] ∨
      ∃ t : Sifted, t.Shows w.registry w.heap root ∧
        Sifts w (w.heap.arrivals w.registry.visibleOf [root])
          (surveyOf w.registry w.heap root).order (surveyOf w.registry w.heap root).name?
          (w.whole root) { filter := state } [] [] (t.text 0 ++ "\n")
          (.enter root true :: t.inside ++ [.exit root]) t.outline.visits := by
  rcases hasked : w.filter.enter state (w.heap.get root) with ⟨answer, asked⟩
  cases answer with
  | false => exact .inl (.ask hasked (.skip (Room.start w.registry w.heap root).pass))
  | true =>
      rcases exists_sifted w root asked with ⟨t, hshows, hsifts⟩
      exact .inr ⟨t, hshows, .ask hasked ((hsifts.thenExit root).thenText "\n")⟩

/-- The same for a graph whose fields take values of a kind. -/
theorem whole_sifts
    (hbuilt : ∀ r, w.heap.Reaches w.registry.visibleOf root r →
      (w.heap.get r).IsBuilt (w.registry.visibleOf (w.heap.get r)))
    (state : σ) :
    Sifts w (w.heap.arrivals w.registry.visibleOf [root]) (surveyOf w.registry w.heap root).order
        (surveyOf w.registry w.heap root).name? (w.whole root) { filter := state } [] [] ""
        [.enter root false] [] ∨
      ∃ t : Sifted, t.Draws w.registry w.heap root ∧
        Sifts w (w.heap.arrivals w.registry.visibleOf [root])
          (surveyOf w.registry w.heap root).order (surveyOf w.registry w.heap root).name?
          (w.whole root) { filter := state } [] [] (t.text 0 ++ "\n")
          (.enter root true :: t.inside ++ [.exit root]) t.outline.visits := by
  rcases whole_shows w root state with hsifts | ⟨t, hshows, hsifts⟩
  · exact .inl hsifts
  · exact .inr ⟨t, t.draws hshows .refl fun r hr => shape_of_writtenFields (hbuilt r hr), hsifts⟩

/-- What is written by name in an outline with the names of the survey has been closed before, and
    nothing else in the outline has that name. -/
theorem closed_of_used {reg : Registry} {h : Heap} {o : Outline}
    (hacyclic : AcyclicFrom reg h root) (hfollows : o.Follows (h.Linked reg.visibleOf) root)
    (hmarked : Marked [] o.visits)
    (hnamed : ∀ v ∈ o.visits, v.name = (surveyOf reg h root).name? v.ref)
    (hcount : ∀ r, (o.visits.map Visit.ref).count r ≤ (h.arrivals reg.visibleOf [root]).count r)
    {before after : List Mark} {r : Ref} {name : String}
    (hmarks : o.marks = before ++ .used r name :: after) :
    .closed r (some name) ∈ before ∧ ∀ v ∈ o.visits, v.name = some name → v.ref = r := by
  have hground : o.Grounded [] :=
    o.grounded hacyclic hfollows .refl hmarked (fun x hx => nomatch hx)
  have hsettled := o.settled hground hnamed
  rw [hmarks] at hsettled
  rcases hsettled.closed with ⟨hname, hclosed⟩
  refine ⟨hclosed.resolve_left (List.not_mem_nil), fun v hv hvname => ?_⟩
  have hvisit := o.visit_of_used (r := r) (hmarks ▸ List.mem_append_right _ List.mem_cons_self)
  refine sole_of_short hmarked hvisit (hcount r) rfl hname ?_
  rw [← hnamed v hv, hvname]

/-- Writing an object with any filter, on an output that takes everything, of a graph without cycles
    whose types are registered and whose fields take values of a kind. The words with the filter are
    nested. If the root is rejected, nothing is written. Otherwise there is a sifted outline of the
    whole graph from which text and words come: what is accepted is what is shown, in order, in full
    where an object comes first and by name everywhere else, and what is shown by name has been
    closed before under that name, which no other object in the text has. -/
theorem object_filtered (hacyclic : AcyclicFrom w.registry w.heap root)
    (hregistered : ∀ r, w.heap.Reaches w.registry.visibleOf root r →
      w.registry.contains (w.heap.get r).typeName = true)
    (hbuilt : ∀ r, w.heap.Reaches w.registry.visibleOf root r →
      (w.heap.get r).IsBuilt (w.registry.visibleOf (w.heap.get r)))
    (writer : Writer σ) (hlimit : writer.sink.limit = none) :
    ∃ events sink state, objectCall w writer.filter root = (events, .ok ()) ∧
      writer.object w root = (⟨sink, state⟩, .ok ()) ∧
      (w.labels = false → sink.bytes = writer.sink.bytes ++ (textOf events).toByteArray) ∧
      Heard w.filter w.heap writer.filter events state ∧ Nested (wordsOf events) ∧
      ((wordsOf events = [.enter root false] ∧ textOf events = "") ∨
        ∃ t : Sifted, t.Draws w.registry w.heap root ∧ textOf events = t.text 0 ++ "\n" ∧
          wordsOf events = .enter root true :: t.inside ++ [.exit root] ∧
          accepted (wordsOf events) = t.outline.visits.map Visit.ref ∧
          (∀ before v after, t.outline.visits = before ++ v :: after →
            (v.isFull = true ↔ v.ref ∉ before.map Visit.ref)) ∧
          ∀ before r name after, t.outline.marks = before ++ .used r name :: after →
            .closed r (some name) ∈ before ∧
            ∀ v ∈ t.outline.visits, v.name = some name → v.ref = r) := by
  have hcall := objectCall_eq hregistered writer.filter
  have hobject : ∀ sink state, writer.sink.perform writer.filter
      (w.whole root { filter := writer.filter }).1 = (sink, state, true) →
      writer.object w root = (⟨sink, state⟩, .ok ()) := by
    intro sink state hperform
    rw [Writer.object, hcall, Writer.perform, hperform]
    rfl
  -- The root is rejected, or a sifted outline says all the rest.
  rcases whole_sifts hbuilt writer.filter with hsifts | ⟨t, hdraws, hsifts⟩
  · rcases perform_of_unlimited hlimit hsifts.heard with ⟨sink, hperform, hbytes⟩
    refine ⟨_, sink, _, hcall, hobject _ _ hperform, fun hlabels => hbytes
      (hsifts.unlabelled hlabels), hsifts.heard, ?_, .inl ⟨hsifts.spoken, hsifts.shown⟩⟩
    rw [hsifts.spoken]
    exact .rejected .nil
  · rcases perform_of_unlimited hlimit hsifts.heard with ⟨sink, hperform, hbytes⟩
    refine ⟨_, sink, _, hcall, hobject _ _ hperform, fun hlabels => hbytes
      (hsifts.unlabelled hlabels), hsifts.heard, ?_, .inr ⟨t, hdraws, hsifts.shown, hsifts.spoken,
      ?_, fun before v after hvisits => ?_, fun before r name after hmarks => ?_⟩⟩
    · rw [hsifts.spoken]
      exact .accepted t.nested .nil
    · rw [hsifts.spoken, accepted_around, ← t.accepted_inside, Sifted.ref_of_draws hdraws]
      simp [accepted]
    · have hmarked := hsifts.marked
      rw [hvisits] at hmarked
      simpa using hmarked.isFull_iff
    · exact closed_of_used hacyclic (t.follows hdraws) hsifts.marked hsifts.named hsifts.count_le
        hmarks

end

/-- A node that lists another one three times. -/
def thrice : Heap :=
  ⟨#[{ typeName := "Node", slots := Table.empty.insert "all" (.values [.objects [1, 1, 1]]) },
     { typeName := "Node" }]⟩

/-- The filter that rejects what it is asked about second. -/
def notSecond : Filter Nat where
  enter asked _ := (asked ≠ 1, asked + 1)
  exit asked _ := asked

theorem linked_thrice {r x : Ref} (hlink : thrice.Linked Registry.nodes.visibleOf r x) :
    r = 0 ∧ x = 1 := by
  have hlt : r < thrice.size := Nat.lt_of_not_le fun hle => Heap.not_linked_of_size_le hle _ hlink
  have hcases : ∀ r < thrice.size, ∀ x ∈ thrice.children Registry.nodes.visibleOf r,
      r = 0 ∧ x = 1 := by
    decide
  exact hcases r hlt x hlink

theorem reaches_thrice {r : Ref} (hr : thrice.Reaches Registry.nodes.visibleOf 0 r) :
    r = 0 ∨ r = 1 := by
  cases hr with
  | refl => exact .inl rfl
  | tail _ hlink => exact .inr (linked_thrice hlink).2

/-- The other node is asked about three times, and left out once. -/
theorem object_filtered_thrice :
    AcyclicFrom .nodes thrice 0 ∧
    (∀ r, thrice.Reaches Registry.nodes.visibleOf 0 r →
      Registry.nodes.contains (thrice.get r).typeName = true) ∧
    (∀ r, thrice.Reaches Registry.nodes.visibleOf 0 r →
      (thrice.get r).IsBuilt (Registry.nodes.visibleOf (thrice.get r))) ∧
    ∃ events sink state, objectCall ⟨.nodes, thrice, notSecond, false⟩ 0 0 = (events, .ok ()) ∧
      Writer.object ⟨{}, 0⟩ ⟨.nodes, thrice, notSecond, false⟩ 0 = (⟨sink, state⟩, .ok ()) ∧
      Nested (wordsOf events) ∧
      ∃ t : Sifted, t.Draws .nodes thrice 0 ∧ textOf events = t.text 0 ++ "\n" ∧
        wordsOf events = .enter 0 true :: t.inside ++ [.exit 0] := by
  have hacyclic : AcyclicFrom .nodes thrice 0 := by
    intro x _ hcycle
    rcases Relation.TransGen.head'_iff.1 hcycle with ⟨y, hlink, hback⟩
    rcases linked_thrice hlink with ⟨rfl, rfl⟩
    rcases Relation.ReflTransGen.cases_head_iff.1 hback with heq | ⟨z, hlink', -⟩
    · cases heq
    · cases (linked_thrice hlink').1
  have hregistered : ∀ r, thrice.Reaches Registry.nodes.visibleOf 0 r →
      Registry.nodes.contains (thrice.get r).typeName = true := by
    intro r hr
    rcases reaches_thrice hr with rfl | rfl <;> decide
  have hbuilt : ∀ r, thrice.Reaches Registry.nodes.visibleOf 0 r →
      (thrice.get r).IsBuilt (Registry.nodes.visibleOf (thrice.get r)) := by
    intro r hr field hfield
    have hfields : Registry.nodes.visibleOf (thrice.get r) =
        [⟨"next", .object none, false⟩, ⟨"all", .objects (some "Node"), false⟩] := by
      rcases reaches_thrice hr with rfl | rfl <;> decide
    rw [hfields] at hfield
    rcases List.mem_pair.1 hfield with rfl | rfl
    · refine ⟨trivial, fun content hcontent => ?_⟩
      rcases reaches_thrice hr with rfl | rfl <;> cases hcontent
    · refine ⟨trivial, fun content hcontent => ?_⟩
      rcases reaches_thrice hr with rfl | rfl
      · rw [← Option.some.inj hcontent]
        exact ⟨[1, 1, 1], rfl⟩
      · cases hcontent
  have hfiltered := object_filtered (w := ⟨.nodes, thrice, notSecond, false⟩) hacyclic hregistered
    hbuilt ⟨{}, 0⟩ rfl
  rcases hfiltered with ⟨events, sink, state, hcall, hobject, -, hheard, hnested, hleft⟩
  refine ⟨hacyclic, hregistered, hbuilt, events, sink, state, hcall, hobject, hnested, ?_⟩
  -- The filter accepts what it is asked about first, so the root is not rejected.
  rcases hleft with ⟨hwords, -⟩ | ⟨t, hdraws, htext, hwords, -⟩
  · cases hheard.first hwords
  · exact ⟨t, hdraws, htext, hwords⟩

end GraphText.Writer

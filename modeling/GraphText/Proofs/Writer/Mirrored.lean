import GraphText.Proofs.Heap.Renamed
import GraphText.Proofs.Writer.Legible

/-!
# Numbers of objects are not written

Objects are told apart by number all along the way to a text: by the survey, by
the names it chooses, and by the writer, which remembers what it has written.
None of it shows. If the visible part of one graph is that of another one under
other numbers, both have the same text, down to the names that are made up for
them, and both fail in the same way if they fail.

The two runs go side by side. The walks arrive at corresponding objects, so the
same names are chosen in the same order. Then every action of the writer does to
the images of some objects what it does to the objects; what the two have
written are images too, which is what makes both decide alike between a body and
a name. The events differ at most in the objects they are about, and an output
does not look at those.

## Main definitions

* `Heap.Mirrors`: one graph is the visible part of another one under other
  numbers.
* `Writer.Event.Alike`: events that differ at most in their objects.
* `Writer.Action.Mirrors`: what is done to the objects of one graph is done to
  those of the other.

## Theorems

* `Heap.Mirrors.arrivals_eq`, `Writer.name?_mirrored`: the walk and the names.
* `Writer.object_mirrors`: the events of an object.
* `Writer.object_mirrored`: the text of a graph.
-/

namespace GraphText

theorem Value.text_mapRefs (f : Ref → Ref) (v : Value) : (v.mapRefs f).text = v.text := by
  cases v <;> rfl

namespace Heap

/-- The graph below the second root is the graph below the first one under other numbers, as far as
    it is written. -/
structure Mirrors (h : Heap) (reg : Registry) (root : Ref) (h' : Heap) (root' : Ref)
    (f : Ref → Ref) : Prop where
  root_eq : f root = root'
  bijOn : Set.BijOn f {x | h.Reaches reg.visibleOf root x} {y | h'.Reaches reg.visibleOf root' y}
  typeName : ∀ x, h.Reaches reg.visibleOf root x → (h'.get (f x)).typeName = (h.get x).typeName
  name : ∀ x, h.Reaches reg.visibleOf root x → (h'.get (f x)).name = (h.get x).name
  fields : ∀ x, h.Reaches reg.visibleOf root x → ∀ field ∈ reg.visibleOf (h.get x),
    (h'.get (f x)).fetch? field = ((h.get x).fetch? field).map (List.map (Value.mapRefs f))

theorem reaches_of_mem_arrivals {h : Heap} {fields : Instance → List FieldSpec} {root x : Ref}
    (hx : x ∈ h.arrivals fields [root]) : h.Reaches fields root x := by
  simpa using mem_arrivals_iff.1 hx

namespace Mirrors

variable {reg : Registry} {h h' : Heap} {root root' x : Ref} {f : Ref → Ref}

theorem injOn (hm : h.Mirrors reg root h' root' f) :
    Set.InjOn f {x | h.Reaches reg.visibleOf root x} :=
  hm.bijOn.injOn

theorem visibleOf_eq (hm : h.Mirrors reg root h' root' f) (hx : h.Reaches reg.visibleOf root x) :
    reg.visibleOf (h'.get (f x)) = reg.visibleOf (h.get x) :=
  reg.visibleOf_congr (hm.typeName x hx)

theorem writtenFields_eq (hm : h.Mirrors reg root h' root' f)
    (hx : h.Reaches reg.visibleOf root x) :
    Writer.writtenFields reg (h'.get (f x)) = (Writer.writtenFields reg (h.get x)).map
      fun line => (line.1, line.2.map (Value.mapRefs f)) := by
  unfold Writer.writtenFields
  rw [hm.visibleOf_eq hx, List.map_filterMap]
  refine List.filterMap_congr fun field hfield => ?_
  rw [hm.fields x hx field hfield]
  cases (h.get x).fetch? field <;> rfl

/-- The walks arrive at corresponding objects. -/
theorem arrivals_eq (hm : h.Mirrors reg root h' root' f) :
    h'.arrivals reg.visibleOf [root'] = (h.arrivals reg.visibleOf [root]).map f := by
  have hroot : [root'] = [root].map f := by rw [List.map_singleton, hm.root_eq]
  rw [hroot]
  refine arrivals_map hm.injOn (fun r hr => children_map (hm.visibleOf_eq hr) (hm.fields r hr))
    (fun r hr y hy => hr.tail hy) fun r hr => ?_
  rw [List.mem_singleton.1 hr]
  exact .refl

theorem order_eq (hm : h.Mirrors reg root h' root' f) :
    (Writer.surveyOf reg h' root').order = (Writer.surveyOf reg h root).order.map f := by
  change (h'.arrivals reg.visibleOf [root']).eraseDups =
    (h.arrivals reg.visibleOf [root]).eraseDups.map f
  rw [hm.arrivals_eq, eraseDups_map (hm.injOn.mono fun r => reaches_of_mem_arrivals)]

end Mirrors

end Heap

namespace Writer

/-- Names are chosen for images as for the objects themselves. -/
theorem lookup_chooseNames_map {h h' : Heap} {f : Ref → Ref} {isShared isShared' : Ref → Bool}
    {owners : String → Nat} (taken : List String) {rs : List Ref} {r : Ref}
    (hf : ∀ x ∈ rs, f x = f r → x = r)
    (htype : ∀ x ∈ rs, (h'.get (f x)).typeName = (h.get x).typeName)
    (hname : ∀ x ∈ rs, (h'.get (f x)).name = (h.get x).name)
    (hshared : ∀ x ∈ rs, isShared' (f x) = isShared x) :
    (chooseNames h' isShared' owners taken (rs.map f)).lookup (f r) =
      (chooseNames h isShared owners taken rs).lookup r := by
  induction rs generalizing taken with
  | nil => rfl
  | cons x rs ih =>
      have hrest := fun taken => ih taken (fun y hy => hf y (List.mem_cons_of_mem _ hy))
        (fun y hy => htype y (List.mem_cons_of_mem _ hy))
        (fun y hy => hname y (List.mem_cons_of_mem _ hy))
        (fun y hy => hshared y (List.mem_cons_of_mem _ hy))
      have hkey : (f r == f x) = (r == x) := by
        rw [Bool.eq_iff_iff, beq_iff_eq, beq_iff_eq]
        exact ⟨fun heq => (hf x List.mem_cons_self heq.symm).symm, congrArg f⟩
      rw [List.map_cons, chooseNames, chooseNames, htype x List.mem_cons_self,
        hname x List.mem_cons_self, hshared x List.mem_cons_self]
      -- The same names are taken at every object, since the same have been chosen before it.
      split
      · split
        · rw [List.lookup_cons, List.lookup_cons, hkey, hrest]
        · rw [List.lookup_cons, List.lookup_cons, hkey, hrest]
      · rw [List.lookup_cons, List.lookup_cons, hkey, hrest]
      · rw [List.lookup_cons, List.lookup_cons, hkey, hrest]
      · exact hrest taken

section

variable {reg : Registry} {h h' : Heap} {root root' : Ref} {f : Ref → Ref}

theorem ownNames_mirrored (hm : h.Mirrors reg root h' root' f) :
    ownNames reg h' root' = ownNames reg h root := by
  unfold ownNames
  rw [hm.order_eq, List.filterMap_map]
  exact List.filterMap_congr fun r hr => hm.name r (mem_order_iff.1 hr)

/-- Corresponding objects are met equally often. -/
theorem count_arrivals_mirrored (hm : h.Mirrors reg root h' root' f) {x : Ref}
    (hx : h.Reaches reg.visibleOf root x) :
    (h'.arrivals reg.visibleOf [root']).count (f x) =
      (h.arrivals reg.visibleOf [root]).count x := by
  rw [hm.arrivals_eq, List.count, List.countP_map]
  refine List.countP_congr fun r hr => ?_
  rw [Function.comp_apply, beq_iff_eq, beq_iff_eq]
  exact ⟨fun heq => hm.injOn (Heap.reaches_of_mem_arrivals hr) hx heq, congrArg f⟩

/-- The survey gives corresponding objects the same names. -/
theorem name?_mirrored (hm : h.Mirrors reg root h' root' f) {x : Ref}
    (hx : h.Reaches reg.visibleOf root x) :
    (surveyOf reg h' root').name? (f x) = (surveyOf reg h root).name? x := by
  change (chooseNames h' (fun r => 1 < (h'.arrivals reg.visibleOf [root']).count r)
    (ownNames reg h' root').count (ownNames reg h' root').eraseDups
    (surveyOf reg h' root').order).lookup (f x) = _
  rw [ownNames_mirrored hm, hm.order_eq]
  refine lookup_chooseNames_map _ (fun r hr heq => hm.injOn (mem_order_iff.1 hr) hx heq)
    (fun r hr => hm.typeName r (mem_order_iff.1 hr)) (fun r hr => hm.name r (mem_order_iff.1 hr))
    fun r hr => ?_
  rw [count_arrivals_mirrored hm (mem_order_iff.1 hr)]

/-- Both graphs have a survey, or both have none and for the same reason. -/
theorem ofRoots_mirrored (hm : h.Mirrors reg root h' root' f) :
    (∃ cause, Survey.ofRoots reg h [root] = .error cause ∧
      Survey.ofRoots reg h' [root'] = .error cause) ∨
    Survey.ofRoots reg h [root] = .ok (surveyOf reg h root) ∧
      Survey.ofRoots reg h' [root'] = .ok (surveyOf reg h' root') := by
  let check (h : Heap) (r : Ref) : Except Cause Unit := do
    let _ ← reg.lookup (h.get r).typeName
  have hsurvey : ∀ (h : Heap) (root : Ref), Survey.ofRoots reg h [root] =
      (surveyOf reg h root).order.forM (check h) >>= fun _ => .ok (surveyOf reg h root) :=
    fun _ _ => rfl
  -- The survey looks up the types of the objects, which are the same on both sides.
  have hcheck : ∀ rs : List Ref, (∀ r ∈ rs, h.Reaches reg.visibleOf root r) →
      (rs.map f).forM (check h') = rs.forM (check h) := by
    intro rs hrs
    induction rs with
    | nil => rfl
    | cons r rs ih =>
        have hone : check h' (f r) = check h r := by
          simp only [check, hm.typeName r (hrs r List.mem_cons_self)]
        rw [List.map_cons, List.forM, List.forM, hone]
        simp only [ih fun x hx => hrs x (List.mem_cons_of_mem _ hx)]
  rw [hsurvey, hsurvey, hm.order_eq, hcheck _ fun r hr => mem_order_iff.1 hr]
  cases (surveyOf reg h root).order.forM (check h) with
  | error cause => exact .inl ⟨cause, rfl, rfl⟩
  | ok checked => exact .inr ⟨rfl, rfl⟩

end

/-- Events that put out the same and are the same for a filter, about objects that may differ. A
    label shows its object, so no label is like another one. -/
inductive Event.Alike {σ : Type} : Event σ → Event σ → Prop
  | text (s : String) : Alike (.text s) (.text s)
  | entered (r r' : Ref) (accepted : Bool) (state : σ) :
      Alike (.entered r accepted state) (.entered r' accepted state)
  | exited (r r' : Ref) (state : σ) : Alike (.exited r state) (.exited r' state)

theorem textOf_alike {σ : Type} {events events' : List (Event σ)}
    (h : List.Forall₂ Event.Alike events events') : textOf events' = textOf events := by
  unfold textOf
  congr 1
  induction h with
  | nil => rfl
  | cons hone _ ih => cases hone <;> simp only [List.map_cons, Event.shown, ih]

/-- An output does not look at the objects of events. -/
theorem Sink.perform_alike {σ : Type} {events events' : List (Event σ)}
    (h : List.Forall₂ Event.Alike events events') (sink : Sink) (state : σ) :
    sink.perform state events' = sink.perform state events := by
  induction h generalizing sink state with
  | nil => rfl
  | cons hone _ ih =>
      cases hone with
      | text s =>
          rw [perform, perform]
          cases sink.write s with
          | mk next all =>
              cases all with
              | true => exact ih next state
              | false => rfl
      | entered r r' accepted next => exact ih sink next
      | exited r r' next => exact ih sink next

/-- What has been done, under other numbers. -/
def Progress.mapRefs {σ : Type} (f : Ref → Ref) (p : Progress σ) : Progress σ :=
  { p with written := p.written.map f }

/-- The second action does to the images of some objects what the first one does to the objects. -/
def Action.Mirrors (among : Ref → Prop) (f : Ref → Ref) (a a' : Action Unit) : Prop :=
  ∀ p, (∀ r ∈ p.written, among r) →
    List.Forall₂ Event.Alike (a p).1 (a' (p.mapRefs f)).1 ∧
      (a' (p.mapRefs f)).2 = (a p).2.mapRefs f ∧ ∀ r ∈ (a p).2.written, among r

namespace Action.Mirrors

variable {among : Ref → Prop} {f : Ref → Ref} {a a' b b' : Action Unit}

theorem skip : Mirrors among f .skip .skip :=
  fun _ hp => ⟨.nil, rfl, hp⟩

theorem text (s : String) : Mirrors among f (.text s) (.text s) :=
  fun _ hp => ⟨.cons (.text s) .nil, rfl, hp⟩

theorem mark {r : Ref} (hr : among r) : Mirrors among f (.mark r) (.mark (f r)) := by
  refine fun p hp => ⟨.nil, rfl, fun x hx => ?_⟩
  rcases List.mem_cons.1 hx with rfl | hx
  · exact hr
  · exact hp x hx

theorem exit (h h' : Heap) (r r' : Ref) : Mirrors among f (.exit .all h r) (.exit .all h' r') :=
  fun _ hp => ⟨.cons (.exited r r' ()) .nil, rfl, hp⟩

theorem append (ha : Mirrors among f a a') (hb : Mirrors among f b b') :
    Mirrors among f (a ++ b) (a' ++ b') := by
  intro p hp
  rcases ha p hp with ⟨hevents, hnext, hamong⟩
  rcases hb (a p).2 hamong with ⟨hevents', hnext', hamong'⟩
  rw [append_apply, append_apply, hnext]
  exact ⟨List.rel_append hevents hevents', hnext', hamong'⟩

/-- Without a filter nothing is left out. -/
theorem ifEntered (ha : Mirrors among f a a') (h h' : Heap) (r r' : Ref) (no no' : Action Unit) :
    Mirrors among f (.ifEntered .all h r a no) (.ifEntered .all h' r' a' no') := by
  intro p hp
  rcases ha p hp with ⟨hevents, hnext, hamong⟩
  exact ⟨.cons (.entered r r' true ()) hevents, hnext, hamong⟩

end Action.Mirrors

theorem flat_mapRefs {f : Ref → Ref} {vs : List Value} (hflat : IsFlat vs) :
    IsFlat (vs.map (Value.mapRefs f)) := by
  constructor
  · intro r hr
    rcases List.map_eq_singleton_iff.1 hr with ⟨v, rfl, hv⟩
    cases v with
    | object x => exact hflat.1 x rfl
    | bool | int | uint | float | string | objects => cases hv
  · intro rs hrs
    rcases List.map_eq_singleton_iff.1 hrs with ⟨v, rfl, hv⟩
    cases v with
    | objects xs => exact hflat.2 xs rfl
    | bool | int | uint | float | string | object => cases hv

theorem scalarsText_mapRefs (f : Ref → Ref) (field : FieldSpec) (vs : List Value) :
    scalarsText field (vs.map (Value.mapRefs f)) = scalarsText field vs := by
  have htexts : (vs.map (Value.mapRefs f)).map Value.text = vs.map Value.text := by
    rw [List.map_map]
    exact List.map_congr_left fun v _ => Value.text_mapRefs f v
  rw [scalarsText, scalarsText, htexts]

section

variable {reg : Registry} {h h' : Heap} {root root' : Ref} {f : Ref → Ref} {among : Ref → Prop}
  {object object' : Nat → Ref → Action Unit}

/-- The lines of a list of objects. -/
theorem elements_mirrors (reg : Registry) (h h' : Heap) {one one' : Ref → Action Unit}
    (hone : ∀ r, among r → Action.Mirrors among f (one r) (one' (f r))) (depth : Nat)
    (started : Bool) {rs : List Ref} (hrs : ∀ r ∈ rs, among r) :
    Action.Mirrors among f ((Setting.plain reg h).elements one depth started rs)
      ((Setting.plain reg h').elements one' depth started (rs.map f)) := by
  induction rs generalizing started with
  | nil => cases started <;> exact .text _
  | cons r rs ih =>
      -- Whether the bracket is open is all that differs from line to line.
      have hopening : Action.Mirrors among f (if started then .skip else .text "[\n")
          (if started then .skip else .text "[\n") := by
        cases started
        · exact .text _
        · exact .skip
      have hline := ((hopening.append (.text (indentation (depth + 1)))).append
        (hone r (hrs r List.mem_cons_self))).append (.exit h h' r (f r))
      have hrest := ih true fun x hx => hrs x (List.mem_cons_of_mem _ hx)
      have hall := ((hline.append (.text ",\n")).append hrest).ifEntered h h' r (f r)
        ((Setting.plain reg h).elements one depth started rs)
        ((Setting.plain reg h').elements one' depth started (rs.map f))
      cases started <;> exact hall

/-- The line of a field. -/
theorem fieldLine_mirrors (reg : Registry) (h h' : Heap)
    (hobject : ∀ depth r, among r → Action.Mirrors among f (object depth r) (object' depth (f r)))
    (depth : Nat) (field : FieldSpec) {vs : List Value}
    (hvs : ∀ r ∈ vs.flatMap Value.refs, among r) :
    Action.Mirrors among f ((Setting.plain reg h).fieldLine object depth field vs)
      ((Setting.plain reg h').fieldLine object' depth field (vs.map (Value.mapRefs f))) := by
  unfold Setting.fieldLine
  rcases flat_cases vs with ⟨r, rfl⟩ | ⟨rs, rfl⟩ | hflat
  · have hr : among r := hvs r (by simp [Value.refs])
    have hline := ((Action.Mirrors.text (indentation depth ++ field.name ++ ": ")).append
      ((hobject depth r hr).append (.exit h h' r (f r)))).append (.text ",\n")
    exact hline.ifEntered h h' r (f r) .skip .skip
  · have hrs : ∀ r ∈ rs, among r := fun r hr => hvs r (by simpa [Value.refs] using hr)
    exact ((Action.Mirrors.text _).append
      (elements_mirrors reg h h' (hobject (depth + 1)) depth false hrs)).append (.text _)
  · rw [unlessRejected_of_flat _ hflat, unlessRejected_of_flat _ (flat_mapRefs hflat),
      value_of_flat _ _ depth field hflat, value_of_flat _ _ depth field (flat_mapRefs hflat),
      scalarsText_mapRefs]
    exact ((Action.Mirrors.text _).append (.text _)).append (.text _)

/-- The lines of a body. -/
theorem lines_mirrors (reg : Registry) (h h' : Heap)
    (hobject : ∀ depth r, among r → Action.Mirrors among f (object depth r) (object' depth (f r)))
    (depth : Nat) {fields : List (FieldSpec × List Value)}
    (hfields : ∀ line ∈ fields, ∀ r ∈ line.2.flatMap Value.refs, among r) :
    Action.Mirrors among f
      (.sequence (fields.map fun (field, vs) =>
        (Setting.plain reg h).fieldLine object depth field vs))
      (.sequence ((fields.map fun line => (line.1, line.2.map (Value.mapRefs f))).map
        fun (field, vs) => (Setting.plain reg h').fieldLine object' depth field vs)) := by
  induction fields with
  | nil => exact .skip
  | cons line fields ih =>
      have hline := fieldLine_mirrors reg h h' hobject depth line.1
        (hfields line List.mem_cons_self)
      exact hline.append (ih fun other hother => hfields other (List.mem_cons_of_mem _ hother))

/-- An object in full. -/
theorem full_mirrors (hm : h.Mirrors reg root h' root' f)
    (hobject : ∀ depth r, h.Reaches reg.visibleOf root r →
      Action.Mirrors (h.Reaches reg.visibleOf root) f (object depth r) (object' depth (f r)))
    (depth : Nat) {r : Ref} (hr : h.Reaches reg.visibleOf root r) (name : Option String) :
    Action.Mirrors (h.Reaches reg.visibleOf root) f
      ((Setting.plain reg h).full object depth r name)
      ((Setting.plain reg h').full object' depth (f r) name) := by
  have hwritten := hm.writtenFields_eq hr
  have hrefs : ∀ line ∈ writtenFields reg (h.get r), ∀ x ∈ line.2.flatMap Value.refs,
      h.Reaches reg.visibleOf root x :=
    fun line hline x hx => hr.tail (linked_of_writtenFields hline hx)
  -- The fields that are written are the same, and what they refer to is reached from the root.
  cases hfields : writtenFields reg (h.get r) with
  | nil =>
      rw [hfields] at hwritten
      rw [full_of_nil (w := .plain reg h) hfields, full_of_nil (w := .plain reg h') hwritten,
        label_plain, label_plain]
      change Action.Mirrors _ f
        (.mark r ++ (.text (header (h.get r).typeName name ++ " \x7b\x7d") ++ .skip))
        (.mark (f r) ++ (.text (header (h'.get (f r)).typeName name ++ " \x7b\x7d") ++ .skip))
      rw [hm.typeName r hr]
      exact (Action.Mirrors.mark hr).append ((Action.Mirrors.text _).append .skip)
  | cons line fields =>
      rw [hfields] at hwritten hrefs
      have hlines := lines_mirrors reg h h' hobject (depth + 1) hrefs
      rw [full_of_cons (w := .plain reg h) hfields, full_of_cons (w := .plain reg h') hwritten,
        label_plain, label_plain]
      change Action.Mirrors _ f
        (.mark r ++ (.text (header (h.get r).typeName name ++ " \x7b") ++ _))
        (.mark (f r) ++ (.text (header (h'.get (f r)).typeName name ++ " \x7b") ++ _))
      rw [hm.typeName r hr]
      exact (Action.Mirrors.mark hr).append ((Action.Mirrors.text _).append
        (Action.Mirrors.skip.append ((Action.Mirrors.text _).append (hlines.append (.text _)))))

/-- An object, in full or by name. -/
theorem object_mirrors (hm : h.Mirrors reg root h' root' f) {names names' : Ref → Option String}
    (hnames : ∀ r, h.Reaches reg.visibleOf root r → names' (f r) = names r) (fuel depth : Nat)
    {r : Ref} (hr : h.Reaches reg.visibleOf root r) :
    Action.Mirrors (h.Reaches reg.visibleOf root) f
      ((Setting.plain reg h).object names fuel depth r)
      ((Setting.plain reg h').object names' fuel depth (f r)) := by
  induction fuel generalizing depth r with
  | zero => exact .skip
  | succ fuel ih =>
      have hfull := full_mirrors hm (fun depth x hx => ih depth hx) depth hr (names r)
      intro p hp
      -- Both runs have written the object or both have not.
      have hcontains : (p.mapRefs f).written.contains (f r) = p.written.contains r := by
        rw [Bool.eq_iff_iff, List.contains_iff_mem, List.contains_iff_mem]
        refine ⟨fun hmem => ?_, List.mem_map_of_mem⟩
        rcases List.mem_map.1 hmem with ⟨x, hx, heq⟩
        exact hm.injOn (hp x hx) hr heq ▸ hx
      simp only [Setting.object, hnames r hr, hcontains]
      cases hname : names r with
      | none => rw [hname] at hfull; exact hfull p hp
      | some name =>
          rw [hname] at hfull
          cases p.written.contains r with
          | true => exact Action.Mirrors.text _ p hp
          | false => exact hfull p hp

/-- The events of writing an object by itself. -/
theorem objectCall_mirrored (hm : h.Mirrors reg root h' root' f) :
    List.Forall₂ Event.Alike (objectCall (.plain reg h) () root).1
        (objectCall (.plain reg h') () root').1 ∧
      (objectCall (.plain reg h') () root').2 = (objectCall (.plain reg h) () root).2 := by
  rcases ofRoots_mirrored hm with ⟨cause, herror, herror'⟩ | ⟨hsurvey, hsurvey'⟩
  · have hcall : ∀ {h : Heap} {root : Ref}, Survey.ofRoots reg h [root] = .error cause →
        objectCall (.plain reg h) () root = ([.entered root true ()], .error cause) := by
      intro h root herror
      unfold objectCall
      simp only [Setting.plain, Filter.all, herror, if_true]
    rw [hcall herror, hcall herror']
    exact ⟨.cons (.entered root root' true ()) .nil, rfl⟩
  · have hcall : ∀ {h : Heap} {root : Ref}, Survey.ofRoots reg h [root] =
        .ok (surveyOf reg h root) → objectCall (.plain reg h) () root =
          (.entered root true () :: (((Setting.plain reg h).surveyed (surveyOf reg h root) 0 root ++
            .exit .all h root ++ .text "\n" : Action Unit) { filter := () }).1, .ok ()) := by
      intro h root hsurvey
      unfold objectCall
      simp only [Setting.plain, Filter.all, hsurvey, if_true]
    -- There are as many objects here as there, and so as much fuel.
    have hsurveyed : (Setting.plain reg h').surveyed (surveyOf reg h' root') 0 root' =
        (Setting.plain reg h').object (surveyOf reg h' root').name?
          ((surveyOf reg h root).order.length + 1) 0 root' := by
      rw [Setting.surveyed, hm.order_eq, List.length_map]
    have hobject := object_mirrors hm (fun _ hr => name?_mirrored hm hr)
      ((surveyOf reg h root).order.length + 1) 0 .refl
    rw [hm.root_eq, ← hsurveyed] at hobject
    have haction := ((hobject.append (.exit h h' root root')).append (.text "\n"))
      { filter := () } (by simp)
    rw [hcall hsurvey, hcall hsurvey']
    exact ⟨.cons (.entered root root' true ()) haction.1, rfl⟩

/-- Two graphs of which one is the visible part of the other under other numbers have the same text,
    and writing them does the same on every output. -/
theorem object_mirrored (hm : h.Mirrors reg root h' root' f) :
    objectText? reg h' root' = objectText? reg h root ∧
      ∀ w : Writer Unit, w.object { registry := reg, heap := h', filter := .all } root' =
        w.object { registry := reg, heap := h, filter := .all } root := by
  rcases objectCall_mirrored hm with ⟨hevents, hresult⟩
  have hplain : ∀ (h : Heap) (root : Ref), objectText? reg h root =
      (objectCall (.plain reg h) () root).2.map
        fun () => textOf (objectCall (.plain reg h) () root).1 := fun _ _ => rfl
  have hobject : ∀ (w : Writer Unit) (h : Heap) (root : Ref),
      w.object { registry := reg, heap := h, filter := .all } root =
        w.perform (objectCall (.plain reg h) () root) := fun _ _ _ => rfl
  refine ⟨?_, fun w => ?_⟩
  · rw [hplain, hplain, hresult, textOf_alike hevents]
  · rw [hobject, hobject, perform, perform, hresult, Sink.perform_alike hevents]

end

/-- The ring with its nodes in the other order, behind one that they do not refer to. -/
def turnedRing : Heap :=
  ⟨#[{ typeName := "Node", name := some "Node_1" },
     { typeName := "Node", slots := Table.empty.insert "next" (.values [.object 2]) },
     { typeName := "Node", slots := Table.empty.insert "all" (.values [.objects [1, 2]]) }]⟩

theorem reaches_turnedRing {r : Ref} (hr : turnedRing.Reaches Registry.nodes.visibleOf 2 r) :
    r = 2 ∨ r = 1 := by
  have hchildren : ∀ x : Nat, x = 2 ∨ x = 1 →
      ∀ c ∈ turnedRing.children Registry.nodes.visibleOf x, c = 2 ∨ c = 1 := by
    intro x hx
    rcases hx with rfl | rfl <;> decide
  induction hr with
  | refl => exact .inl rfl
  | tail _ hx ih => exact hchildren _ ih _ hx

theorem object_mirrored_ring :
    Heap.ring.Mirrors .nodes 0 turnedRing 2 (2 - ·) ∧
      objectText? .nodes turnedRing 2 = objectText? .nodes .ring 0 := by
  have hmirrors : Heap.ring.Mirrors .nodes 0 turnedRing 2 (2 - ·) := by
    refine ⟨rfl, ⟨fun x hx => ?_, fun x hx y hy heq => ?_, fun y hy => ?_⟩, fun x hx => ?_,
      fun x hx => ?_, fun x hx => ?_⟩
    · have hlinked : 1 ∈ turnedRing.children Registry.nodes.visibleOf 2 := by decide
      rcases reaches_ring hx with rfl | rfl
      · exact .refl
      · exact .single hlinked
    · rcases reaches_ring hx with rfl | rfl <;> rcases reaches_ring hy with rfl | rfl
      · rfl
      · cases heq
      · cases heq
      · rfl
    · have hlinked : 1 ∈ Heap.ring.children Registry.nodes.visibleOf 0 := by decide
      rcases reaches_turnedRing hy with rfl | rfl
      · exact ⟨0, .refl, rfl⟩
      · exact ⟨1, .single hlinked, rfl⟩
    · rcases reaches_ring hx with rfl | rfl <;> rfl
    · rcases reaches_ring hx with rfl | rfl <;> rfl
    · rcases reaches_ring hx with rfl | rfl <;> decide
  exact ⟨hmirrors, (object_mirrored hmirrors).1⟩

-- The stray node has the name already, but is not met.
example : objectText? .nodes turnedRing 2 = .ok ("Node \"Node_1\" \x7b\n" ++
    "  all: [\n    Node \x7b\n      next: USE \"Node_1\",\n    \x7d,\n" ++
    "    USE \"Node_1\",\n  ],\n\x7d\n") := by
  cbv

end Writer

end GraphText

import GraphText.Proofs.Reader.Redrawn

/-!
# The text of a graph is read as the graph

A graph that was read is written and read again. What comes back is the same
graph as far as it is written: the types, the fields that are set and not
hidden, the scalars in them, the order of lists, and which places hold the same
object. Names come back as well. Only an object that is met more than once and
cannot be told from others by its own name has got a new one, and then a name
that nothing else has.

Everything that the proof needs of the graph has been made sure of when the
graph was read: its objects are of their types, the types and fields can be
named in a text, and no object lies on a cycle, so that a name is used only
behind the body that defines it.

## Main definitions

* `Heap.Recurs`: a graph that has come back.

## Theorems

* `recurs_of_images`: a graph that has come up as planned has come back.
* `writable_of_read`: what was read can be given again.
* `readText_objectText`: what is written of a graph that was read is read as the
  same graph.
-/

namespace GraphText

open Reader Writer

/-- The graph below one root has come back below another one, as far as it is written, each object
    under the number that `f` gives. -/
structure Heap.Recurs (reg : Registry) (h : Heap) (root : Ref) (h' : Heap) (root' : Ref)
    (f : Ref → Ref) : Prop where
  roots : f root = root'
  reaches : ∀ r, h.Reaches reg.visibleOf root r → h'.Reaches reg.visibleOf root' (f r)
  injective : ∀ r x, h.Reaches reg.visibleOf root r → h.Reaches reg.visibleOf root x →
    f r = f x → r = x
  surjective : ∀ y, h'.Reaches reg.visibleOf root' y →
    ∃ r, h.Reaches reg.visibleOf root r ∧ f r = y
  typeName : ∀ r, h.Reaches reg.visibleOf root r → (h'.get (f r)).typeName = (h.get r).typeName
  fields : ∀ r, h.Reaches reg.visibleOf root r → ∀ field ∈ reg.visibleOf (h.get r),
    (h'.get (f r)).fetch? field = ((h.get r).fetch? field).map (List.map (Value.mapRefs f))
  /-- an object that is met once, or is the only one of its name, keeps what name it has -/
  kept : ∀ r, h.Reaches reg.visibleOf root r →
    ¬ (IsShared reg h root r ∧ ¬ IsSole reg h root r) → (h'.get (f r)).name = (h.get r).name
  /-- the name of an object that is met more than once is the name of no other -/
  sole : ∀ r, h.Reaches reg.visibleOf root r → IsShared reg h root r →
    ∃ name, (h'.get (f r)).name = some name ∧
      ∀ y, h'.Reaches reg.visibleOf root' y → (h'.get y).name = some name → y = f r

section

variable {reg : Registry} {h h' : Heap} {root r : Ref}

/-- What the object of an image refers to. -/
theorem children_of_image {plan : Plan} (himage : plan.Image reg h' r) :
    h'.children reg.visibleOf (plan.place r) =
      (plan.heap.children reg.visibleOf r).map plan.place :=
  Heap.children_map (reg.visibleOf_congr himage.typeName) himage.fields

/-- A graph that has come up as planned, by the names of its survey, has come back. -/
theorem recurs_of_images {plan : Plan} (hheap : plan.heap = h)
    (hnames : plan.names = (surveyOf reg h root).name?)
    (hinjective : ∀ r x, h.Reaches reg.visibleOf root r → h.Reaches reg.visibleOf root x →
      plan.place r = plan.place x → r = x)
    (himages : ∀ r, h.Reaches reg.visibleOf root r → plan.Image reg h' r) :
    Heap.Recurs reg h root h' (plan.place root) plan.place := by
  subst hheap
  -- The arrows of an image are the images of the arrows, which carries both inductions below.
  have hchildren : ∀ r, plan.heap.Reaches reg.visibleOf root r → ∀ y,
      h'.Linked reg.visibleOf (plan.place r) y ↔
        ∃ x, plan.heap.Linked reg.visibleOf r x ∧ plan.place x = y := by
    intro r hr y
    unfold Heap.Linked
    rw [children_of_image (himages r hr), List.mem_map]
  have hsurjective : ∀ y, h'.Reaches reg.visibleOf (plan.place root) y →
      ∃ r, plan.heap.Reaches reg.visibleOf root r ∧ plan.place r = y := by
    intro y hy
    induction hy with
    | refl => exact ⟨root, .refl, rfl⟩
    | tail _ hlink ih =>
        rcases ih with ⟨r, hr, rfl⟩
        rcases (hchildren r hr _).1 hlink with ⟨x, hx, rfl⟩
        exact ⟨x, hr.tail hx, rfl⟩
  refine ⟨rfl, fun r hr => ?_, hinjective, hsurjective, fun r hr => (himages r hr).typeName,
    fun r hr => (himages r hr).fields, fun r hr hkept => ?_, fun r hr hshared => ?_⟩
  · induction hr with
    | refl => exact .refl
    | tail hr hlink ih => exact ih.tail ((hchildren _ hr _).2 ⟨_, hlink, rfl⟩)
  · rw [(himages r hr).name, hnames]
    exact name?_of_kept hr hkept
  · -- The survey gives what is shared a name that it gives to nothing else.
    rcases Option.isSome_iff_exists.1 (named_of_shared hr hshared) with ⟨name, hname⟩
    refine ⟨name, by rw [(himages r hr).name, hnames, hname], fun y hy hyname => ?_⟩
    rcases hsurjective y hy with ⟨x, hx, rfl⟩
    rw [(himages x hx).name, hnames] at hyname
    rw [name?_injective hr hshared hname hyname]

/-- A text of an outline that is grounded is read, and the graph comes up in the order of the
    outline. -/
theorem readText_outline {env : Environment} {plan : Plan} {o : Outline} {root : Ref}
    (hobjects : plan.IsWritable env.registry root)
    (hdraws : o.Draws env.registry plan.heap root) (hnamed : Named plan.names o.visits)
    (hground : o.Grounded []) {heap : Heap} (hnumbered : Numbered plan.place heap.size o.visits) :
    ∃ out, readText env heap (o.text 0 ++ "\n") = .ok out ∧ out.root = plan.place root ∧
      plan.Grown env.registry [] heap out.heap (fulls o.visits) := by
  have hcomes : ComesTo env (.inText env heap (({} : Context).enter (.object .root))
      ([] ++ ((o.text 0).toList ++ ['\n'])) .start) fun s => ∃ out, step env s = .ok (.inr out) ∧
        out.root = plan.place root ∧
          plan.Grown env.registry [] heap out.heap (fulls o.visits) := by
    have hscoped : plan.Scoped ({} : Scopes) [] :=
      ⟨fun name x hx => absurd hx (Scopes.not_names_empty name x),
        fun r hr => absurd hr List.not_mem_nil⟩
    refine Plan.comesTo_outline hobjects o hdraws .refl hnamed hground hnumbered
      (fun r hr => absurd hr List.not_mem_nil) hscoped (by simp) isBlank_nil
      fun heap' scopes' hgrown _ _ => ⟨_, _, rfl, fun p => ⟨_, .refl, ?_⟩⟩
    -- Behind the object nothing is left but the newline.
    have hend : Lexeme.Starts ['\n'] .eof [] := Lexeme.starts_eof.blank rfl
    rcases exists_token env hend p with ⟨q, q', htoken⟩
    have hturn : turn env.registry Location.stringSource heap'
        (({} : Context).enter (.finished (plan.place root))) ⟨.eof, q⟩ =
          .ok (.leave (plan.place root)) := rfl
    exact ⟨⟨heap', plan.place root, []⟩, step_of_turn (htoken heap' _) (by simp) hturn, rfl, hgrown⟩
  rcases hcomes with ⟨last, hsteps, out, hlast, hroot, hgrown⟩
  refine ⟨out, ?_, hroot, hgrown⟩
  have hstart : readText env heap (o.text 0 ++ "\n") =
      run env (.inText env heap {} (o.text 0 ++ "\n").toList .start) := rfl
  rw [hstart, String.toList_append]
  exact (run_of_steps hsteps).trans (run_of_last hlast)

/-- What was read has no cycles. -/
theorem acyclicFrom_of_read {env : Environment} {heap : Heap} {input : Input} {out : Output}
    (hread : input.read env heap = .ok out) : AcyclicFrom env.registry out.heap out.root := by
  intro r hr hcycle
  refine acyclic_of_read hread (Heap.points_of_reaches hr) ?_
  exact Relation.TransGen.mono (fun x y hlink => Heap.points_of_linked hlink) _ _ hcycle

/-- All that is written of a graph that was read can be given again by a text. -/
theorem writable_of_read {specs : List ObjectSpec} {env : Environment} {heap : Heap}
    {input : Input} {out : Output} (hregistry : Registry.empty.addAll specs = .ok env.registry)
    (hdeclared : env.registry.IsDeclared) (hread : input.read env heap = .ok out)
    (hback : ∀ r, out.heap.Reaches env.registry.visibleOf out.root r →
      ∀ field ∈ env.registry.visibleOf (out.heap.get r), ∀ vs,
        (out.heap.get r).fetch? field = some vs →
          ∀ x, .float x ∈ vs → Number.Single.read x.text = some x)
    (hr : out.heap.Reaches env.registry.visibleOf out.root r) :
    (out.heap.get r).name ≠ some "" ∧ ∃ spec, Writable env.registry out.heap r spec := by
  have hvalid := Registry.isValid_of_addAll hregistry
  have htyped := (typed_of_read hvalid hread r (Heap.points_of_reaches hr)).2.2
  refine ⟨htyped.name, writable_of_typed hvalid hdeclared htyped fun line hline v hv => ?_⟩
  rcases mem_writtenFields.1 hline with ⟨hfield, hfetch⟩
  cases v with
  | float x => exact hback r hr line.1 hfield line.2 hfetch x hv
  | bool | int | uint | string | object | objects => trivial

/-- A graph that was read is written, and what is written is read, with any options and files, as
    the same graph as far as it is written. The names of flags must be read as the flags, and the
    singles of the graph as they were. -/
theorem readText_objectText {specs : List ObjectSpec} {env : Environment} {heap : Heap}
    {input : Input} {out : Output} (hregistry : Registry.empty.addAll specs = .ok env.registry)
    (hdeclared : env.registry.IsDeclared) (hread : input.read env heap = .ok out)
    (hback : ∀ r, out.heap.Reaches env.registry.visibleOf out.root r →
      ∀ field ∈ env.registry.visibleOf (out.heap.get r), ∀ vs,
        (out.heap.get r).fetch? field = some vs →
          ∀ x, .float x ∈ vs → Number.Single.read x.text = some x) :
    ∃ text, objectText? env.registry out.heap out.root = .ok text ∧
      ∀ env' : Environment, env'.registry = env.registry → ∀ heap' : Heap,
        ∃ out' f, readText env' heap' text = .ok out' ∧
          out.heap.Recurs env.registry out.root out'.heap out'.root f := by
  have hwritable : ∀ r, out.heap.Reaches env.registry.visibleOf out.root r →
      (out.heap.get r).name ≠ some "" ∧ ∃ spec, Writable env.registry out.heap r spec :=
    fun r hr => writable_of_read hregistry hdeclared hread hback hr
  have hregistered : ∀ r, out.heap.Reaches env.registry.visibleOf out.root r →
      env.registry.contains (out.heap.get r).typeName = true := by
    intro r hr
    rcases (hwritable r hr).2 with ⟨spec, hspec⟩
    rw [Registry.contains, hspec.found]
    rfl
  have hshaped : ∀ r, out.heap.Reaches env.registry.visibleOf out.root r →
      ∀ line ∈ writtenFields env.registry (out.heap.get r), IsShaped line.2 := by
    intro r hr line hline
    rcases (hwritable r hr).2 with ⟨spec, hspec⟩
    exact shaped_of_given (hspec.lines line hline)
  rcases exists_legible hregistered hshaped (fun r hr => (hwritable r hr).1)
    (acyclicFrom_of_read hread) with ⟨o, htext, hdraws, hnamed, hground, hnodup, hfulls⟩
  refine ⟨_, htext, fun env' henv heap' => ?_⟩
  -- The bodies make the new objects, one behind the other from the size of the heap on.
  let plan : Plan :=
    { heap := out.heap
      names := (surveyOf env.registry out.heap out.root).name?
      place := fun r => heap'.size + (fulls o.visits).idxOf r }
  have hobjects : plan.IsWritable env'.registry out.root := by
    rw [henv]
    exact fun r hr => (hwritable r hr).2
  rcases readText_outline hobjects (henv ▸ hdraws) hnamed hground (numbered_idxOf hnodup heap'.size)
    with ⟨out', hout', hroot, hgrown⟩
  have hrecurs : out.heap.Recurs env.registry out.root out'.heap (plan.place out.root)
      plan.place := by
    refine recurs_of_images rfl rfl (fun r x hr hx heq => ?_) fun r hr => ?_
    · -- Whatever is reached has a body, so its place is the place of no other.
      have hindex := Nat.add_left_cancel heq
      exact (List.idxOf_inj ((hfulls r).2 hr)).1 hindex
    · rw [← henv]
      exact (hgrown.images r ((hfulls r).2 hr)).2.2
  exact ⟨out', plan.place, hout', hroot ▸ hrecurs⟩

/-- An object in two fields is one object again. -/
theorem readText_objectText_nodes :
    ∃ out text out' f,
      (Input.text "Node \x7b next: Node \"c\" \x7b\x7d, all: [USE \"c\"] \x7d").read
        (.nodes fun _ => .error "") .empty = .ok out ∧
      objectText? .nodes out.heap out.root = .ok text ∧
      readText (.nodes fun _ => .error "") .empty text = .ok out' ∧
      out.heap.Recurs .nodes out.root out'.heap out'.root f := by
  have hrun :
      ((Input.text "Node \x7b next: Node \"c\" \x7b\x7d, all: [USE \"c\"] \x7d").outputWithin?
        (.nodes fun _ => .error "") .empty 40).any (fun out => out.heap.instances.all fun i =>
          (Registry.nodes.visibleOf i).all fun field =>
            ((i.fetch? field).getD []).all fun v => v.type ≠ .scalar .float) = true := by
    decide +kernel
  rcases (Option.any_eq_true _ _).1 hrun with ⟨out, hout, hobjects⟩
  have hread := Input.read_of_outputWithin? hout
  have hregistry : Registry.empty.addAll Registry.nodes.specs = .ok Registry.nodes := by decide
  have hdeclared : Registry.nodes.IsDeclared := by
    intro spec hspec field hfield
    cases List.mem_singleton.1 hspec
    rcases List.mem_pair.1 hfield with rfl | rfl <;> trivial
  -- None of the values is a single.
  have hsingles : ∀ r, ∀ field ∈ Registry.nodes.visibleOf (out.heap.get r), ∀ vs,
      (out.heap.get r).fetch? field = some vs → ∀ x, .float x ∉ vs := by
    intro r field hfield vs hvs x hx
    by_cases hr : r < out.heap.instances.size
    · have hget : out.heap.get r = out.heap.instances[r] := by
        rw [Heap.get, Array.getD, dif_pos hr]
        rfl
      have hobject := Array.all_eq_true.1 hobjects r hr
      rw [← hget] at hobject
      have hfields := List.all_eq_true.1 hobject field hfield
      rw [hvs, Option.getD_some] at hfields
      exact of_decide_eq_true (List.all_eq_true.1 hfields _ hx) rfl
    · have hget : out.heap.get r = default := by
        rw [Heap.get, Array.getD, dif_neg hr]
      rw [hget] at hfield
      cases hfield
  rcases readText_objectText hregistry hdeclared hread
      (fun r _ field hfield vs hvs x hx => absurd hx (hsingles r field hfield vs hvs x))
    with ⟨text, htext, hback⟩
  rcases hback _ rfl .empty with ⟨out', f, hout', hrecurs⟩
  exact ⟨out, text, out', f, hread, htext, hout', hrecurs⟩

end

end GraphText

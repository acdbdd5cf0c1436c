import GraphText.Proofs.Dependency.Affected
import GraphText.Proofs.Reader.Include

/-!
# The edges of a reading

The edges that reading yields are those of its includes, one behind the other:
the edge of an include, and behind it the edges that its file gives alone. So
the list is the tree of includes in preorder, with the files that are included
twice in it twice.

A run goes down into an include and comes up again, and what is said here is
about one document, so `Passes` takes the whole of an include as one step. The
state behind an include is far from the one in front of it, so the induction is
on how much is left to read, which is less behind every step.

The name that an include is found under is the name of its document, and its own
includes are recorded under that name. This is why the edges hold together: from
each of them a chain of edges leads back to the document at the root, and a
change of any included file affects that document.

## Main definitions

* `Occurrence`: an include that has been read.
* `Passes`: the run of one document, with its includes in reading order.
* `Rooted`: edges that hold together.

## Theorems

* `passes_of_run`: a run that ends passes through its document.
* `dependencies_of_passes`: the edges of the includes that it passes.
* `rooted_of_steps`: the edges of every state hold together.
* `dependencies_preorder`: the edges of a reading, and what they are good for.
-/

namespace GraphText.Reader

/-- An include that has been read: the path as it is written, and what its file gives alone. -/
structure Occurrence where
  written : String
  output : Output

/-- The edges of an include in a document: its own, and those of its file. -/
def Occurrence.edges (source directory : Path) (o : Occurrence) : List Dependency :=
  ⟨source, directory.join ⟨o.written⟩⟩ :: o.output.dependencies

/-- The run of one document from a state to a later one, and the includes that are read in it on the
    way, in reading order. What happens inside of an include is passed over. -/
inductive Passes (env : Environment) : State → List Occurrence → State → Prop where
  | here (s : State) : Passes env s [] s
  | step {s s' last : State} {occurrences : List Occurrence}
      (hstep : step env s = .ok (.inl s')) (hwaiting : s'.waiting = s.waiting)
      (hrest : Passes env s' occurrences last) : Passes env s occurrences last
  | included {s entered inner left last : State} {written : String} {start : Position}
      {target : Target} {root : Ref} {output : Output} {occurrences : List Occurrence}
      (hmode : s.document.context.mode = .includingPath start written target)
      (hincluded : Included env s entered (s.document.directory.join ⟨written⟩) inner root)
      (hleft : step env inner = .ok (.inl left))
      (halone : readPath env .empty (s.document.directory.join ⟨written⟩) = .ok output)
      (hrest : Passes env left occurrences last) :
      Passes env s (⟨written, output⟩ :: occurrences) last

/-- Edges that hold together: each one is of the document at the root, or of a file that an edge
    before it includes. -/
def Rooted (root : Path) (edges : List Dependency) : Prop :=
  ∀ before edge after, edges = before ++ edge :: after →
    edge.including = root ∨ ∃ d ∈ before, d.included = edge.including

section

variable {env : Environment} {s s' : State}

/-- What holds of a state if it holds of all that come up later in its run holds of every state. -/
theorem steps_induction (env : Environment) {P : State → Prop}
    (h : ∀ s, (∀ s' t, step env s = .ok (.inl s') → Steps env s' t → P t) → P s) (s : State) :
    P s := by
  have hwf : WellFounded fun b a : State => step env a = .ok (.inl b) :=
    Subrelation.wf step_rank (InvImage.wf State.rank env.rankLess_wellFounded)
  induction s using hwf.transGen.induction with
  | _ s ih =>
    refine h s fun s' t hstep hsteps => ih t ?_
    rw [Relation.transGen_swap]
    exact Relation.TransGen.head' hstep hsteps

/-- What a step does to the document and the edges, when it does not change documents. -/
theorem same_document_of_step (h : step env s = .ok (.inl s')) (hwaiting : s'.waiting = s.waiting) :
    s'.document.source = s.document.source ∧ s'.document.directory = s.document.directory ∧
      s'.dependencies = s.dependencies := by
  cases stepped_of_step h with
  | expand hread hl hexpand =>
      rcases expand_eq_ok hexpand with ⟨tokens, rfl⟩
      exact ⟨rfl, rfl, rfl⟩
  | move hread htokens hmove => exact ⟨rfl, rfl, rfl⟩
  | enter hread hmode henter =>
      rcases enter_eq_ok_iff.1 henter with ⟨file, doc, -, rfl⟩
      simp [State.entered] at hwaiting
  | leave hmode hnext hresume =>
      rcases resume_eq_ok hresume with ⟨heap, context, -, rfl⟩
      simp [hnext] at hwaiting

/-- A step goes on in its document, enters an include, or leaves one. -/
theorem waiting_of_step (h : step env s = .ok (.inl s')) :
    s'.waiting = s.waiting ∨
      (∃ start written target, s.document.context.mode = .includingPath start written target ∧
        s'.dependencies = s.dependencies ++
          [⟨s.document.source, s.document.directory.join ⟨written⟩⟩]) ∨
      ∃ w, s.waiting = w :: s'.waiting := by
  cases stepped_of_step h with
  | expand hread hl hexpand => exact .inl rfl
  | move hread htokens hmove => exact .inl rfl
  | enter hread hmode henter =>
      rcases enter_eq_ok_iff.1 henter with ⟨file, doc, -, rfl⟩
      exact .inr (.inl ⟨_, _, _, hmode, rfl⟩)
  | leave hmode hnext hresume =>
      rcases resume_eq_ok hresume with ⟨heap, context, -, rfl⟩
      exact .inr (.inr ⟨_, hnext⟩)

/-- The file of an include that has been read can be read alone, and gives the edges that the
    include has added. -/
theorem read_of_included {path : Path} {last : State} {root : Ref}
    (h : Included env s s' path last root) :
    ∃ output, readPath env .empty path = .ok output ∧
      last.dependencies = s'.dependencies ++ output.dependencies := by
  rcases alone_of_included h with ⟨first, a, alone, -, -, hfirst, hsteps, hend, rfl, -⟩
  refine ⟨alone, Input.read_eq_ok_iff.2 ⟨first, hfirst, ?_⟩, ?_⟩
  · rw [run_of_steps hsteps, run_of_last hend]
  · rw [(step_eq_inr hend).2.2.2]
    rfl

/-- Behind an include the document that it stands in goes on. -/
theorem left_of_included {path : Path} {inner left : State} {root : Ref}
    (h : Included env s s' path inner root) (hleft : step env inner = .ok (.inl left)) :
    left.waiting = s.waiting ∧ left.document.source = s.document.source ∧
      left.document.directory = s.document.directory ∧ left.dependencies = inner.dependencies := by
  rcases h.left with ⟨_, hstep, hwaiting⟩
  rw [hleft] at hstep
  cases hstep
  -- Of all steps only one that opens a file records a dependency.
  have hdocument : ∃ w, s'.waiting = w :: s.waiting ∧ w.document.source = s.document.source ∧
      w.document.directory = s.document.directory := by
    have hchanged : s'.dependencies ≠ s.dependencies := by
      rw [h.dependency]
      simp
    cases stepped_of_step h.entered with
    | expand _ _ _ => exact absurd rfl hchanged
    | move _ _ _ => exact absurd rfl hchanged
    | leave _ _ hresume =>
        rcases resume_eq_ok hresume with ⟨_, _, -, rfl⟩
        exact absurd rfl hchanged
    | enter _ _ henter =>
        rcases enter_eq_ok_iff.1 henter with ⟨_, _, -, rfl⟩
        exact ⟨_, rfl, rfl, rfl⟩
  rcases hdocument with ⟨w, hw, hsource, hdirectory⟩
  have hinner : inner.waiting = w :: s.waiting := h.waiting.trans hw
  cases stepped_of_step hleft with
  | expand | move => exact absurd (hinner.symm.trans hwaiting) (List.cons_ne_self _ _)
  | enter _ hmode _ =>
      rw [h.finished] at hmode
      cases hmode
  | leave _ hnext hresume =>
      rcases resume_eq_ok hresume with ⟨heap, context, -, rfl⟩
      rw [hinner] at hnext
      cases hnext
      exact ⟨hwaiting, hsource, hdirectory, rfl⟩

/-- A run that ends passes from every state of the document at the bottom to its end. -/
theorem passes_of_run {out : Output} (hwaiting : s.waiting = []) (h : run env s = .ok out) :
    ∃ occurrences last, Passes env s occurrences last ∧ step env last = .ok (.inr out) := by
  induction s using steps_induction env with
  | _ s ih =>
    cases hstep : step env s with
    | error e =>
        rw [run_of_error hstep] at h
        cases h
    | ok result =>
        cases result with
        | inr output =>
            rw [run_of_last hstep] at h
            cases h
            exact ⟨[], s, .here s, hstep⟩
        | inl next =>
            have hnext : run env next = .ok out := (run_of_step hstep).symm.trans h
            rcases waiting_of_step hstep with
              hsame | ⟨start, written, target, hmode, hedge⟩ | hleave
            · rcases ih next next hstep .refl (hsame.trans hwaiting) hnext with
                ⟨occurrences, last, hpasses, hlast⟩
              exact ⟨occurrences, last, .step hstep hsame hpasses, hlast⟩
            · -- The include comes to an end, and the document goes on behind it.
              rcases included_of_run hnext hstep hedge with ⟨inner, root, hincluded⟩
              rcases hincluded.left with ⟨left, hleft, hback⟩
              rcases read_of_included hincluded with ⟨output, halone, -⟩
              have hsteps : Steps env next left := hincluded.inside.steps.tail hleft
              have hrest : run env left = .ok out := (run_of_steps hsteps).symm.trans hnext
              rcases ih next left hstep hsteps (hback.trans hwaiting) hrest with
                ⟨occurrences, last, hpasses, hlast⟩
              exact ⟨_, last, .included hmode hincluded hleft halone hpasses, hlast⟩
            · rcases hleave with ⟨w, hw⟩
              rw [hwaiting] at hw
              cases hw

/-- On the way through a document the edges of its includes are added, one behind the other. -/
theorem dependencies_of_passes {occurrences : List Occurrence} {last : State}
    (h : Passes env s occurrences last) :
    last.dependencies = s.dependencies ++
      occurrences.flatMap (Occurrence.edges s.document.source s.document.directory) := by
  induction h with
  | here s => simp
  | step hstep hwaiting hrest ih =>
      rcases same_document_of_step hstep hwaiting with ⟨hsource, hdirectory, hdependencies⟩
      rw [ih, hsource, hdirectory, hdependencies]
  | included hmode hincluded hleft halone hrest ih =>
      rcases left_of_included hincluded hleft with ⟨-, hsource, hdirectory, hdependencies⟩
      rcases read_of_included hincluded with ⟨output, halone', hedges⟩
      rw [halone] at halone'
      cases halone'
      rw [ih, hsource, hdirectory, hdependencies, hedges, hincluded.dependency]
      simp [Occurrence.edges]

/-- The files of the includes of a document can be read alone. -/
theorem read_of_passes {occurrences : List Occurrence} {last : State}
    (h : Passes env s occurrences last) {o : Occurrence} (ho : o ∈ occurrences) :
    readPath env .empty (s.document.directory.join ⟨o.written⟩) = .ok o.output := by
  induction h with
  | here s => simp at ho
  | step hstep hwaiting hrest ih =>
      rw [← (same_document_of_step hstep hwaiting).2.1]
      exact ih ho
  | included hmode hincluded hleft halone hrest ih =>
      rcases List.mem_cons.1 ho with rfl | ho
      · exact halone
      · rw [← (left_of_included hincluded hleft).2.2.1]
        exact ih ho

/-- Edges hold together when one is added for a file that an edge includes. -/
theorem Rooted.append {root : Path} {edges : List Dependency} {edge : Dependency}
    (h : Rooted root edges)
    (hedge : edge.including = root ∨ ∃ d ∈ edges, d.included = edge.including) :
    Rooted root (edges ++ [edge]) := by
  intro before e after heq
  rcases List.eq_nil_or_concat after with rfl | ⟨init, last, rfl⟩
  · have hinj := List.append_inj' heq rfl
    rcases hinj with ⟨rfl, hsingle⟩
    cases hsingle
    exact hedge
  · refine h before e init ?_
    have hcut : edges ++ [edge] = (before ++ e :: init) ++ [last] := by
      rw [heq]
      simp
    exact (List.append_inj' hcut rfl).1

/-- The edges of every state of a reading hold together, and every document that is being read is
    the first one or the file of an edge. -/
theorem rooted_of_steps {root : Path} {start : State} (hs : Steps env start s)
    (hstart : start.document.source = root) (hwaiting : start.waiting = [])
    (hnone : start.dependencies = []) :
    Rooted root s.dependencies ∧
      ∀ doc ∈ s.documents, doc.source = root ∨ ∃ d ∈ s.dependencies, d.included = doc.source := by
  refine hs.preserves (P := fun s => Rooted root s.dependencies ∧ ∀ doc ∈ s.documents,
    doc.source = root ∨ ∃ d ∈ s.dependencies, d.included = doc.source) ?_ ?_
  · rintro a b hstep ⟨hrooted, hdocuments⟩
    cases stepped_of_step hstep with
    | expand hread hl hexpand =>
        rcases expand_eq_ok hexpand with ⟨tokens, rfl⟩
        refine ⟨hrooted, fun doc hdoc => ?_⟩
        rcases List.mem_cons.1 hdoc with rfl | hdoc
        · exact hdocuments a.document List.mem_cons_self
        · exact hdocuments doc (List.mem_cons_of_mem _ hdoc)
    | move hread htokens hmove =>
        refine ⟨hrooted, fun doc hdoc => ?_⟩
        rcases List.mem_cons.1 hdoc with rfl | hdoc
        · exact hdocuments a.document List.mem_cons_self
        · exact hdocuments doc (List.mem_cons_of_mem _ hdoc)
    | @enter _ after path _ _ _ hread hmode henter =>
        rcases enter_eq_ok_iff.1 henter with ⟨file, included, hopen, rfl⟩
        rcases openFile_eq_ok hopen with ⟨-, -, -, text, -, rfl⟩
        refine ⟨hrooted.append (hdocuments a.document List.mem_cons_self), fun doc hdoc => ?_⟩
        rcases List.mem_cons.1 hdoc with rfl | hdoc
        · exact .inr ⟨⟨a.document.source, a.document.directory.join ⟨path⟩⟩,
            by simp [State.entered], rfl⟩
        -- The document that waits now is the one that was read, apart from what is left of it.
        · have hsource : ∃ d ∈ a.documents, d.source = doc.source := by
            rcases List.mem_cons.1 hdoc with rfl | hdoc
            · exact ⟨a.document, List.mem_cons_self, rfl⟩
            · exact ⟨doc, List.mem_cons_of_mem _ hdoc, rfl⟩
          rcases hsource with ⟨d, hd, hsource⟩
          rw [← hsource]
          refine (hdocuments d hd).imp_right ?_
          rintro ⟨e, he, heq⟩
          exact ⟨e, List.mem_append_left _ he, heq⟩
    | @leave w _ _ _ hmode hnext hresume =>
        rcases resume_eq_ok hresume with ⟨heap, context, -, rfl⟩
        refine ⟨hrooted, fun doc hdoc => ?_⟩
        rcases List.mem_cons.1 hdoc with rfl | hdoc
        · exact hdocuments w.document (List.mem_cons_of_mem _ (by simp [hnext]))
        · exact hdocuments doc (List.mem_cons_of_mem _ (by simp [hnext, hdoc]))
  · refine ⟨fun before edge after heq => ?_, fun doc hdoc => ?_⟩
    · rw [hnone] at heq
      simp at heq
    · rw [State.documents, hwaiting, List.map_nil, List.mem_singleton] at hdoc
      exact .inl (hdoc ▸ hstart)

end

/-- Recorded anywhere, edges that hold together say that every included file affects the document at
    the root. -/
theorem isIn_affectedBy_of_rooted {root : Path} {edges : List Dependency}
    (h : Rooted root edges) (index : DependencyIndex) {edge : Dependency} (hedge : edge ∈ edges) :
    root.isIn ((index.recordAll edges).affectedBy edge.included) = true := by
  rw [DependencyIndex.isIn_affectedBy_iff]
  rcases List.append_of_mem hedge with ⟨before, after, hsplit⟩
  -- Along the edges to the front: the file that an edge is of is included by an earlier one.
  induction hn : before.length using Nat.strongRecOn generalizing before edge after with
  | ind n ih =>
    rcases DependencyIndex.mem_recordAll index hedge with ⟨d, hd, hsame⟩
    rw [Dependency.same, Bool.and_eq_true] at hsame
    have hincluded : (index.recordAll edges).IncludedBy edge.included d.including :=
      ⟨d, hd, Path.same_comm.trans hsame.2, rfl⟩
    rcases h before edge after hsplit with hroot | ⟨earlier, hearlier, heq⟩
    · exact ⟨d.including, hroot ▸ hsame.1, .single hincluded⟩
    · rcases List.append_of_mem hearlier with ⟨before', between, rfl⟩
      have hmem : earlier ∈ edges := by
        rw [hsplit]
        exact List.mem_append_left _ hearlier
      have hshorter : before'.length < n := by
        rw [← hn]
        simp
      rcases ih before'.length hshorter hmem before' (between ++ edge :: after) (by simp [hsplit])
        rfl with ⟨r, hr, hchain⟩
      rw [heq] at hchain
      exact ⟨r, hr, .head hincluded (DependencyIndex.transGen_of_same hsame.1 hchain)⟩

/-- The edges of a successful reading are those of the includes in its document, in reading order:
    for each include its own edge, from the name of the document to the path as seen from its
    directory, and behind it the edges that the included file gives alone. So each edge is of the
    document or of a file that an earlier edge includes; and whatever has been recorded before, once
    these edges are recorded every included file affects the document. -/
theorem dependencies_preorder {env : Environment} {heap : Heap} {input : Input} {out : Output}
    (h : input.read env heap = .ok out) :
    (∃ start last occurrences, input.start env heap = .ok start ∧
      Passes env start occurrences last ∧ step env last = .ok (.inr out) ∧
      out.dependencies =
        occurrences.flatMap (Occurrence.edges input.source (input.directory env)) ∧
      ∀ o ∈ occurrences,
        readPath env .empty ((input.directory env).join ⟨o.written⟩) = .ok o.output) ∧
    (∀ before edge after, out.dependencies = before ++ edge :: after →
      edge.including = input.source ∨ ∃ d ∈ before, d.included = edge.including) ∧
    ∀ (index : DependencyIndex) (edge : Dependency), edge ∈ out.dependencies →
      input.source.isIn ((index.recordAll out.dependencies).affectedBy edge.included) = true := by
  rcases Input.read_eq_ok_iff.1 h with ⟨start, hstart, hrun⟩
  rcases Input.start_eq_ok hstart with ⟨-, hnone, hwaiting, -, -⟩
  rcases Input.document_of_start hstart with ⟨text, -, hdocument⟩
  have hsource : start.document.source = input.source := by rw [hdocument]; rfl
  have hdirectory : start.document.directory = input.directory env := by rw [hdocument]; rfl
  have hrooted : Rooted input.source out.dependencies := by
    rcases steps_of_run hrun with ⟨last, hsteps, hlast⟩
    rw [(step_eq_inr hlast).2.2.2]
    exact (rooted_of_steps hsteps hsource hwaiting hnone).1
  refine ⟨?_, hrooted, fun index edge hedge => isIn_affectedBy_of_rooted hrooted index hedge⟩
  rcases passes_of_run hwaiting hrun with ⟨occurrences, last, hpasses, hlast⟩
  refine ⟨start, last, occurrences, hstart, hpasses, hlast, ?_, fun o ho => ?_⟩
  · rw [(step_eq_inr hlast).2.2.2, dependencies_of_passes hpasses, hnone, hsource, hdirectory,
      List.nil_append]
  · rw [← hdirectory]
    exact read_of_passes hpasses ho

/-- Two files, the first of which includes the second one twice. -/
def Environment.including : Environment :=
  .nodes fun path =>
    if path.same ⟨"./a"⟩ then .ok "Node \x7b all: [<\"b\">, <\"b\">] \x7d" else .ok "Node \x7b\x7d"

/-- A text that includes the first file: the second one is reached by it alone, and affects the
    text. -/
theorem dependencies_preorder_including :
    ∃ out, (Input.text "Node \x7b next: <\"a\"> \x7d").read .including .empty = .ok out ∧
      out.dependencies = [⟨⟨"<string>"⟩, ⟨"./a"⟩⟩, ⟨⟨"./a"⟩, ⟨"./b"⟩⟩, ⟨⟨"./a"⟩, ⟨"./b"⟩⟩] ∧
      Path.isIn ⟨"<string>"⟩
        ((DependencyIndex.empty.recordAll out.dependencies).affectedBy ⟨"./b"⟩) = true := by
  have hout : ((Input.text "Node \x7b next: <\"a\"> \x7d").outputWithin?
      .including .empty 40).any (fun out => out.dependencies =
        [⟨⟨"<string>"⟩, ⟨"./a"⟩⟩, ⟨⟨"./a"⟩, ⟨"./b"⟩⟩, ⟨⟨"./a"⟩, ⟨"./b"⟩⟩]) = true := by
    decide +kernel
  rcases (Option.any_eq_true _ _).1 hout with ⟨out, hout, hedges⟩
  have hedges := of_decide_eq_true hedges
  have hread := Input.read_of_outputWithin? hout
  refine ⟨out, hread, hedges, ?_⟩
  exact (dependencies_preorder hread).2.2 .empty ⟨⟨"./a"⟩, ⟨"./b"⟩⟩ (by simp [hedges])

end GraphText.Reader

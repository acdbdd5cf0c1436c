import GraphText.Proofs.Dependency.Affected
import Mathlib.Data.Set.Basic
import Mathlib.Data.Set.Insert

/-!
# What an index stands for

Through all recording and forgetting an index stands for a set of edges between
files, each file taken for what its path means and not for how it is spelled.
What a change does to the set is said without the index; that the index follows
is a step lemma, and a run of changes is an induction over them.

The files that a changed file affects are then a question about the set alone:
who is at the front of a chain of edges that ends in the file. The search counts
its rounds, but a search that does not count them ends as well, and with the
same files. Since no file is found in two spellings, ordering them leaves no two
in the same place.

## Main definitions

* `Dependency.meaning`, `DependencyIndex.meaning`: an edge between files, and the
  edges that an index stands for.
* `DependencyIndex.Change`: what is done with an index, and with its edges.
* `DependencyIndex.Ends`: how a search ends that is not cut short.

## Theorems

* `Path.ascending_sorted`: different files in order.
* `DependencyIndex.meaning_apply`, `DependencyIndex.meaning_foldl`: what a change
  and a run of changes do.
* `DependencyIndex.ends_search`: the rounds are enough.
* `DependencyIndex.affectedBy_refines`: what a file affects after any changes.
-/

namespace GraphText

namespace Path

namespace Component

instance : Std.TransOrd Component :=
  inferInstanceAs (Std.TransCmp (compareLex (compareOn rank) (compareOn label)))

instance : Std.LawfulEqOrd Component where
  eq_of_compare {a b} h := by
    have hkeys : compareLex (compareOn rank) (compareOn label) a b = .eq := h
    rw [compareLex_eq_eq] at hkeys
    have hrank : a.rank = b.rank :=
      Std.LawfulEqCmp.eq_of_compare (show compare a.rank b.rank = .eq from hkeys.1)
    have hlabel : a.label = b.label :=
      Std.LawfulEqCmp.eq_of_compare (show compare a.label b.label = .eq from hkeys.2)
    cases a <;> cases b <;> simp_all [rank, label]

end Component

instance : Std.TransOrd Path :=
  inferInstanceAs (Std.TransCmp (compareOn components))

theorem compare_eq_iff {p q : Path} : compare p q = .eq ↔ p.same q = true := by
  rw [same_iff]
  exact Std.LawfulEqOrd.compare_eq_iff_eq (α := List Component)

theorem Distinct.perm {paths others : List Path} (h : Distinct paths) (hperm : paths.Perm others) :
    Distinct others :=
  (hperm.pairwise_iff fun hpq => same_comm.symm.trans hpq).1 h

/-- Different files in order come one strictly before the other. -/
theorem ascending_sorted {paths : List Path} (h : Distinct paths) :
    (sorted paths).Pairwise fun p q => compare p q = .lt := by
  -- Sorting needs an order that is transitive and total, and leaves files that compare equal side
  -- by side; that there are none is what is known of the files.
  have htrans : ∀ p q r : Path, (compare p q).isLE = true → (compare q r).isLE = true →
      (compare p r).isLE = true := fun _ _ _ => Std.TransOrd.isLE_trans
  have htotal : ∀ p q : Path, ((compare p q).isLE || (compare q p).isLE) = true := by
    intro p q
    rw [Std.OrientedOrd.eq_swap (a := q)]
    cases compare p q <;> rfl
  have hle : (sorted paths).Pairwise fun p q => (compare p q).isLE = true :=
    List.pairwise_mergeSort htrans htotal paths
  have hdistinct : Distinct (sorted paths) := h.perm (List.mergeSort_perm _ _).symm
  refine (hle.and hdistinct).imp fun {p q} hpq => ?_
  have hne : compare p q ≠ .eq := fun heq => by
    rw [compare_eq_iff, hpq.2] at heq
    cases heq
  cases hcompare : compare p q with
  | lt => rfl
  | eq => exact absurd hcompare hne
  | gt => simp [hcompare] at hpq

end Path

/-- An edge between files, whatever their spellings: the including and the included one. -/
def Dependency.meaning (d : Dependency) : List Path.Component × List Path.Component :=
  (d.including.components, d.included.components)

theorem Dependency.same_iff {d e : Dependency} : d.same e = true ↔ d.meaning = e.meaning := by
  simp [Dependency.same, Dependency.meaning, Path.same_iff]

namespace DependencyIndex

/-- The edges that an index stands for. -/
def meaning (index : DependencyIndex) : Set (List Path.Component × List Path.Component) :=
  {edge | ∃ d ∈ index.edges, d.meaning = edge}

/-- What is done with an index, but for asking it. -/
inductive Change where
  | record (edge : Dependency)
  | recordAll (edges : List Dependency)
  | forget (path : Path)

namespace Change

/-- What a change does to an index. -/
def apply (index : DependencyIndex) : Change → DependencyIndex
  | record edge => index.record edge
  | recordAll edges => index.recordAll edges
  | forget path => index.forget path

/-- What a change does to a set of edges: it adds some, or takes away those out of a file. -/
def applyTo (edges : Set (List Path.Component × List Path.Component)) :
    Change → Set (List Path.Component × List Path.Component)
  | record edge => edges ∪ {edge.meaning}
  | recordAll new => edges ∪ {edge | ∃ d ∈ new, d.meaning = edge}
  | forget path => {edge ∈ edges | edge.1 ≠ path.components}

end Change

section

variable {index : DependencyIndex}

theorem meaning_empty : empty.meaning = ∅ := by
  simp [meaning, empty]

theorem meaning_record (edge : Dependency) :
    (index.record edge).meaning = index.meaning ∪ {edge.meaning} := by
  ext link
  rw [Set.mem_union, Set.mem_singleton_iff]
  unfold record
  split
  next hknown =>
    -- The edge is there already, perhaps in another spelling.
    refine ⟨.inl, fun h => h.elim id ?_⟩
    rintro rfl
    rcases List.any_eq_true.1 hknown with ⟨d, hd, hsame⟩
    exact ⟨d, hd, (Dependency.same_iff.1 hsame).symm⟩
  next =>
    constructor
    · rintro ⟨d, hd, rfl⟩
      rcases List.mem_append.1 hd with hd | hd
      · exact .inl ⟨d, hd, rfl⟩
      · exact .inr (List.mem_singleton.1 hd ▸ rfl)
    · rintro (⟨d, hd, rfl⟩ | rfl)
      · exact ⟨d, List.mem_append_left _ hd, rfl⟩
      · exact ⟨edge, List.mem_append_right _ (List.mem_singleton_self edge), rfl⟩

theorem meaning_recordAll (edges : List Dependency) :
    (index.recordAll edges).meaning =
      index.meaning ∪ {edge | ∃ d ∈ edges, d.meaning = edge} := by
  unfold recordAll
  induction edges generalizing index with
  | nil => simp
  | cons first rest ih =>
      rw [List.foldl_cons, ih, meaning_record, Set.union_assoc]
      congr 1
      ext link
      simp [eq_comm]

theorem meaning_forget (path : Path) :
    (index.forget path).meaning = {edge ∈ index.meaning | edge.1 ≠ path.components} := by
  ext link
  constructor
  · rintro ⟨d, hd, rfl⟩
    rcases List.mem_filter.1 hd with ⟨hd, hkept⟩
    refine ⟨⟨d, hd, rfl⟩, fun heq => ?_⟩
    rw [Path.same_iff.2 heq] at hkept
    cases hkept
  · rintro ⟨⟨d, hd, rfl⟩, hne⟩
    refine ⟨d, List.mem_filter.2 ⟨hd, ?_⟩, rfl⟩
    rw [Bool.not_eq_true', Bool.eq_false_iff]
    exact fun hsame => hne (Path.same_iff.1 hsame)

/-- A change does to an index what it does to the edges. -/
theorem meaning_apply (change : Change) :
    (change.apply index).meaning = change.applyTo index.meaning := by
  cases change with
  | record edge => exact meaning_record edge
  | recordAll edges => exact meaning_recordAll edges
  | forget path => exact meaning_forget path

/-- So do changes one after another. -/
theorem meaning_foldl (changes : List Change) :
    (changes.foldl Change.apply index).meaning =
      changes.foldl Change.applyTo index.meaning := by
  induction changes generalizing index with
  | nil => rfl
  | cons change changes ih => rw [List.foldl_cons, List.foldl_cons, ih, meaning_apply]

/-- How a search ends that goes on for as long as files are pending: what has been found at the
    end, given what has been found and what is pending. -/
inductive Ends (index : DependencyIndex) : List Path → List Path → List Path → Prop
  | done (found : List Path) : Ends index found [] found
  | round {found current pending found' pending' last} :
      discover (index.includers current) found pending = (found', pending') →
      Ends index found' pending' last → Ends index found (current :: pending) last

/-- With enough rounds a search ends as it does when they are not counted. -/
theorem ends_search {start : Path} {n : Nat} {found pending : List Path}
    (h : index.Searching start found pending)
    (hn : pending.length + index.edges.length ≤ n + found.length) :
    index.Ends found pending (index.search n found pending) := by
  fun_induction search index n found pending with
  | case1 found pending =>
      rw [Nat.zero_add] at hn
      rw [h.pending_eq_nil hn]
      exact .done found
  | case2 n found => exact .done found
  | case3 found n current pending found' pending' hround ih =>
      rcases h.round hround with ⟨hnext, hcount⟩
      rw [List.length_cons] at hn
      exact .round hround (ih hnext (by omega))

/-- A chain of edges in an index is a chain of what they mean. -/
theorem transGen_meaning_iff {p : Path} {q : List Path.Component} :
    (∃ r, r.components = q ∧ Relation.TransGen index.IncludedBy p r) ↔
      Relation.TransGen (fun x y => (x, y) ∈ index.meaning) q p.components := by
  rw [← Relation.transGen_swap]
  constructor
  · rintro ⟨r, rfl, hchain⟩
    refine hchain.lift Path.components fun a b hab => ?_
    rcases hab with ⟨d, hd, hincluded, rfl⟩
    exact ⟨d, hd, Prod.ext rfl (Path.same_iff.1 hincluded)⟩
  · -- Every place on the way is that of a file, namely of the one that the edge was recorded for.
    intro hchain
    induction hchain with
    | single hedge =>
        rcases hedge with ⟨d, hd, hmeaning⟩
        rcases Prod.ext_iff.1 hmeaning with ⟨hincluding, hincluded⟩
        exact ⟨d.including, hincluding, .single ⟨d, hd, Path.same_iff.2 hincluded, rfl⟩⟩
    | tail _ hedge ih =>
        rcases ih with ⟨r, rfl, hr⟩
        rcases hedge with ⟨d, hd, hmeaning⟩
        rcases Prod.ext_iff.1 hmeaning with ⟨hincluding, hincluded⟩
        exact ⟨d.including, hincluding, hr.tail ⟨d, hd, Path.same_iff.2 hincluded, rfl⟩⟩

/-- After any changes to an index, what a file affects are the files at the front of chains of edges
    that have been recorded and not been forgotten since, each of them once and in ascending order.
    The search for them ends by itself. -/
theorem affectedBy_refines (changes : List Change) (p : Path) :
    let index := changes.foldl Change.apply empty
    let edges := changes.foldl Change.applyTo ∅
    (∃ found, index.Ends [] [p] found ∧ index.affectedBy p = Path.sorted found) ∧
      (∀ q, q ∈ (index.affectedBy p).map Path.components ↔
        Relation.TransGen (fun x y => (x, y) ∈ edges) q p.components) ∧
      ((index.affectedBy p).Pairwise fun x y => compare x y = .lt) ∧
      (p.isIn (index.affectedBy p) = true ↔
        Relation.TransGen (fun x y => (x, y) ∈ edges) p.components p.components) := by
  intro index edges
  have hedges : index.meaning = edges := by
    rw [meaning_foldl, meaning_empty]
  have hfirst := Searching.first index p
  have hlast := searching_search (n := index.edges.length + 1) hfirst (by simp; omega)
  -- Chains are of paths as they are compared, and the answer is of paths as they were given.
  have hmem : ∀ q, q ∈ (index.affectedBy p).map Path.components ↔
      Relation.TransGen (fun x y => (x, y) ∈ edges) q p.components := by
    intro q
    rw [← hedges, ← transGen_meaning_iff, List.mem_map]
    constructor
    · rintro ⟨r, hr, rfl⟩
      rcases isIn_affectedBy_iff.1 (Path.isIn_of_mem hr) with ⟨x, hsame, hchain⟩
      exact ⟨x, (Path.same_iff.1 hsame).symm, hchain⟩
    · rintro ⟨r, rfl, hchain⟩
      have hin := isIn_affectedBy_iff.2 ⟨r, r.same_self, hchain⟩
      rcases Path.isIn_iff.1 hin with ⟨x, hx, hsame⟩
      exact ⟨x, hx, (Path.same_iff.1 hsame).symm⟩
  refine ⟨⟨_, ends_search hfirst (by simp; omega), rfl⟩, hmem,
    Path.ascending_sorted hlast.distinct, ?_⟩
  rw [← hmem, Path.isIn_iff, List.mem_map]
  refine exists_congr fun q => and_congr_right fun _ => ?_
  rw [Path.same_iff, eq_comm]

-- Two files include each other, one of them in another spelling, and a third one includes them.
example : (empty.recordAll [⟨⟨"a"⟩, ⟨"b/"⟩⟩, ⟨⟨"b"⟩, ⟨"a"⟩⟩, ⟨⟨"./a"⟩, ⟨"b"⟩⟩]).affectedBy ⟨"a"⟩ =
    [⟨"./a"⟩, ⟨"a"⟩, ⟨"b"⟩] := by
  cbv

end

end DependencyIndex

end GraphText

import GraphText.Dependency
import Mathlib.Data.List.Perm.Subperm
import Mathlib.Logic.Relation

/-!
# What a changed file affects

The search for the files that a changed file affects goes along the recorded
edges against the direction of the includes. It is settled from two sides, as a
walk is. Nothing is found without a chain of edges to it. And everything at the
end of a chain is found: whatever the search has found is either still pending
or has all its includers among the found ones, so when nothing is pending the
found files are closed.

That nothing is pending in the end is a matter of counting. A round takes one
file from the pending ones and puts there only files that have just been found;
no file is found twice, in any spelling, and every one of them is the including
file of an edge. So there are at most as many rounds as edges, and one more.

## Main definitions

* `DependencyIndex.IncludedBy`: the file that an edge says to include another one.
* `Path.Distinct`: files no two of which are the same.

## Theorems

* `DependencyIndex.mem_record`, `DependencyIndex.mem_recordAll`: what has been
  recorded is there.
* `DependencyIndex.isIn_affectedBy_iff`: what a file affects is what includes it,
  directly or through others.
-/

namespace GraphText

namespace Path

theorem same_comm {p q : Path} : p.same q = q.same p := by
  rw [Bool.eq_iff_iff, same_iff, same_iff, eq_comm]

theorem same_self (p : Path) : p.same p = true :=
  same_iff.2 rfl

theorem same_trans {p q r : Path} (hpq : p.same q = true) (hqr : q.same r = true) :
    p.same r = true :=
  same_iff.2 ((same_iff.1 hpq).trans (same_iff.1 hqr))

theorem isIn_iff {p : Path} {paths : List Path} :
    p.isIn paths = true ↔ ∃ q ∈ paths, p.same q = true := by
  simp [isIn]

theorem isIn_of_mem {p : Path} {paths : List Path} (h : p ∈ paths) : p.isIn paths = true :=
  isIn_iff.2 ⟨p, h, same_self p⟩

theorem mem_sorted {p : Path} {paths : List Path} : p ∈ sorted paths ↔ p ∈ paths := by
  simp [sorted]

/-- No two of some files are the same. -/
def Distinct (paths : List Path) : Prop :=
  paths.Pairwise fun p q => p.same q = false

/-- A file that is in no spelling among distinct ones can be put behind them. -/
theorem Distinct.concat {paths : List Path} {p : Path} (h : Distinct paths)
    (hp : p.isIn paths = false) : Distinct (paths ++ [p]) := by
  refine List.pairwise_append.2 ⟨h, List.pairwise_singleton _ _, fun q hq r hr => ?_⟩
  rw [List.mem_singleton.1 hr]
  rw [isIn, List.any_eq_false] at hp
  simpa [same_comm] using hp q hq

/-- Distinct files that are among some others are at most as many. -/
theorem Distinct.length_le {paths others : List Path} (h : Distinct paths)
    (hsub : ∀ p ∈ paths, p ∈ others) : paths.length ≤ others.length := by
  have hnodup : (paths.map components).Nodup := by
    rw [List.Nodup, List.pairwise_map]
    refine h.imp fun hne heq => ?_
    rw [same_iff.2 heq] at hne
    cases hne
  have hmap : paths.map components ⊆ others.map components :=
    List.map_subset components hsub
  simpa using (List.subperm_of_subset hnodup hmap).length_le

end Path

theorem Dependency.same_self (d : Dependency) : d.same d = true := by
  simp [Dependency.same, Path.same_self]

namespace DependencyIndex

section

variable {index : DependencyIndex} {edge : Dependency}

theorem mem_record_of_mem {other : Dependency} (h : edge ∈ index.edges) :
    edge ∈ (index.record other).edges := by
  unfold record
  split
  · exact h
  · exact List.mem_append_left _ h

/-- An edge that has been recorded is there, perhaps in another spelling. -/
theorem mem_record (index : DependencyIndex) (edge : Dependency) :
    ∃ d ∈ (index.record edge).edges, edge.same d = true := by
  unfold record
  split
  next hknown => simpa using hknown
  next => exact ⟨edge, by simp, edge.same_self⟩

theorem mem_recordAll_of_mem {index : DependencyIndex} {edge : Dependency}
    {edges : List Dependency} (h : edge ∈ index.edges) :
    edge ∈ (index.recordAll edges).edges := by
  induction edges generalizing index with
  | nil => exact h
  | cons first rest ih => exact ih (mem_record_of_mem h)

/-- Of several edges each one is there. -/
theorem mem_recordAll {edges : List Dependency} (index : DependencyIndex) (h : edge ∈ edges) :
    ∃ d ∈ (index.recordAll edges).edges, edge.same d = true := by
  induction edges generalizing index with
  | nil => simp at h
  | cons first rest ih =>
      rcases List.mem_cons.1 h with rfl | h
      · rcases mem_record index edge with ⟨d, hd, hsame⟩
        have hkept : d ∈ ((index.record edge).recordAll rest).edges := mem_recordAll_of_mem hd
        exact ⟨d, hkept, hsame⟩
      · exact ih (index.record first) h

/-- Whether an edge says that the second file includes the first one. -/
def IncludedBy (index : DependencyIndex) (p q : Path) : Prop :=
  ∃ edge ∈ index.edges, edge.included.same p = true ∧ edge.including = q

theorem mem_includers_iff {p q : Path} : q ∈ index.includers p ↔ index.IncludedBy p q := by
  simp [includers, Path.mem_sorted, IncludedBy, and_assoc]

/-- A file is included as it is in every other spelling. -/
theorem IncludedBy.of_same {p p' q : Path} (hsame : p.same p' = true)
    (h : index.IncludedBy p q) : index.IncludedBy p' q := by
  rcases h with ⟨edge, hedge, hincluded, hincluding⟩
  exact ⟨edge, hedge, Path.same_trans hincluded hsame, hincluding⟩

/-- So are chains of edges. -/
theorem transGen_of_same {p p' q : Path} (hsame : p.same p' = true)
    (h : Relation.TransGen index.IncludedBy p q) : Relation.TransGen index.IncludedBy p' q := by
  rcases Relation.TransGen.head'_iff.1 h with ⟨r, hedge, hrest⟩
  exact Relation.TransGen.head' (hedge.of_same hsame) hrest

/-- What a round finds is put to the found and to the pending files alike. -/
theorem discover_eq {ps found pending found' pending' : List Path} (hdistinct : Path.Distinct found)
    (h : discover ps found pending = (found', pending')) :
    ∃ new, found' = found ++ new ∧ pending' = new.reverse ++ pending ∧ (∀ p ∈ new, p ∈ ps) ∧
      (∀ p ∈ ps, p.isIn found' = true) ∧ Path.Distinct found' := by
  induction ps generalizing found pending with
  | nil =>
      cases h
      exact ⟨[], by simp, by simp, by simp, by simp, hdistinct⟩
  | cons p ps ih =>
      rw [discover] at h
      -- A file that has been found adds nothing. Any other one is put behind the found ones, from
      -- all of which it differs.
      split at h
      next hold =>
        rcases ih hdistinct h with ⟨new, rfl, rfl, hnew, hps, hdistinct'⟩
        refine ⟨new, rfl, rfl, fun q hq => List.mem_cons_of_mem _ (hnew q hq), ?_, hdistinct'⟩
        intro q hq
        rcases List.mem_cons.1 hq with rfl | hq
        · rcases Path.isIn_iff.1 hold with ⟨r, hr, hsame⟩
          exact Path.isIn_iff.2 ⟨r, List.mem_append_left _ hr, hsame⟩
        · exact hps q hq
      next hfresh =>
        have hdistinct' : Path.Distinct (found ++ [p]) :=
          hdistinct.concat (Bool.not_eq_true _ ▸ hfresh)
        rcases ih hdistinct' h with ⟨new, rfl, rfl, hnew, hps, hdistinct''⟩
        refine ⟨p :: new, by simp, by simp, ?_, ?_, hdistinct''⟩
        · intro q hq
          rcases List.mem_cons.1 hq with rfl | hq
          · exact List.mem_cons_self
          · exact List.mem_cons_of_mem _ (hnew q hq)
        · intro q hq
          rcases List.mem_cons.1 hq with rfl | hq
          · exact Path.isIn_of_mem (by simp)
          · exact hps q hq

/-- A search from a file in the middle: what has been found, and what is pending. -/
structure Searching (index : DependencyIndex) (start : Path) (found pending : List Path) :
    Prop where
  distinct : Path.Distinct found
  /-- everything found is at the end of a chain of edges -/
  chain : ∀ p ∈ found, Relation.TransGen index.IncludedBy start p
  origin : ∀ p ∈ pending, p = start ∨ p ∈ found
  /-- what is not pending has been searched from -/
  closed : ∀ p, p = start ∨ p ∈ found →
    p ∈ pending ∨ ∀ q, index.IncludedBy p q → q.isIn found = true

theorem Searching.first (index : DependencyIndex) (start : Path) :
    index.Searching start [] [start] where
  distinct := .nil
  chain := by simp
  origin := by simp
  closed := by simp

/-- Everything found is the including file of an edge. -/
theorem Searching.length_le {start : Path} {found pending : List Path}
    (h : index.Searching start found pending) : found.length ≤ index.edges.length := by
  rw [← List.length_map Dependency.including]
  refine h.distinct.length_le fun p hp => ?_
  rcases Relation.TransGen.tail'_iff.1 (h.chain p hp) with ⟨_, -, edge, hedge, -, rfl⟩
  exact List.mem_map_of_mem hedge

/-- When as many files have been found as there are edges, none is pending. -/
theorem Searching.pending_eq_nil {start : Path} {found pending : List Path}
    (h : index.Searching start found pending)
    (hfound : pending.length + index.edges.length ≤ found.length) : pending = [] := by
  have hlength := h.length_le
  exact List.length_eq_zero_iff.1 (by omega)

/-- A round goes on with the search. -/
theorem Searching.round {start current : Path} {found pending found' pending' : List Path}
    (h : index.Searching start found (current :: pending))
    (hround : discover (index.includers current) found pending = (found', pending')) :
    index.Searching start found' pending' ∧
      pending'.length + found.length = pending.length + found'.length := by
  rcases discover_eq h.distinct hround with ⟨new, rfl, rfl, hnew, hall, hdistinct⟩
  have hcurrent : Relation.ReflTransGen index.IncludedBy start current := by
    rcases h.origin current List.mem_cons_self with rfl | hfound
    · exact .refl
    · exact (h.chain current hfound).to_reflTransGen
  have hgrown : ∀ q : Path, q.isIn found = true → q.isIn (found ++ new) = true := by
    intro q hq
    rw [Path.isIn, List.any_append, ← Path.isIn, hq, Bool.true_or]
  refine ⟨⟨hdistinct, ?_, ?_, ?_⟩, by simp; omega⟩
  · intro p hp
    rcases List.mem_append.1 hp with hp | hp
    · exact h.chain p hp
    · exact Relation.TransGen.tail' hcurrent (mem_includers_iff.1 (hnew p hp))
  · intro p hp
    rcases List.mem_append.1 hp with hp | hp
    · exact .inr (List.mem_append_right _ (List.mem_reverse.1 hp))
    · exact (h.origin p (List.mem_cons_of_mem _ hp)).imp_right (List.mem_append_left _)
  · intro p hp
    -- What has just been found is pending, and the file searched from no longer is.
    by_cases hfresh : p ∈ new
    · exact .inl (List.mem_append_left _ (List.mem_reverse.2 hfresh))
    have hold : p = start ∨ p ∈ found :=
      hp.imp_right fun hmem => (List.mem_append.1 hmem).resolve_right hfresh
    rcases h.closed p hold with hpending | hclosed
    · rcases List.mem_cons.1 hpending with rfl | hpending
      · exact .inr fun q hq => hall q (mem_includers_iff.2 hq)
      · exact .inl (List.mem_append_right _ hpending)
    · exact .inr fun q hq => hgrown q (hclosed q hq)

/-- With enough rounds a search goes on until nothing is pending. -/
theorem searching_search {start : Path} {n : Nat} {found pending : List Path}
    (h : index.Searching start found pending)
    (hn : pending.length + index.edges.length ≤ n + found.length) :
    index.Searching start (index.search n found pending) [] := by
  fun_induction search index n found pending with
  | case1 found pending =>
      rw [Nat.zero_add] at hn
      rwa [h.pending_eq_nil hn] at h
  | case2 => exact h
  | case3 found n current pending found' pending' hround ih =>
      rcases h.round hround with ⟨hnext, hcount⟩
      refine ih hnext ?_
      rw [List.length_cons] at hn
      omega

/-- The files that a file affects are those with a chain of edges to them, in any spelling. -/
theorem isIn_affectedBy_iff {p q : Path} :
    q.isIn (index.affectedBy p) = true ↔
      ∃ r, q.same r = true ∧ Relation.TransGen index.IncludedBy p r := by
  have hlast := searching_search (n := index.edges.length + 1) (.first index p) (by simp; omega)
  have hclosed : ∀ x, x = p ∨ x ∈ index.search (index.edges.length + 1) [] [p] →
      ∀ y, index.IncludedBy x y →
        y.isIn (index.search (index.edges.length + 1) [] [p]) = true := by
    intro x hx
    simpa using hlast.closed x hx
  rw [Path.isIn_iff]
  simp only [affectedBy, Path.mem_sorted]
  constructor
  · rintro ⟨r, hr, hsame⟩
    exact ⟨r, hsame, hlast.chain r hr⟩
  · rintro ⟨r, hsame, hchain⟩
    have hfound : r.isIn (index.search (index.edges.length + 1) [] [p]) = true := by
      clear hsame
      induction hchain with
      | single hedge => exact hclosed p (.inl rfl) _ hedge
      | tail _ hedge ih =>
          -- The file before the last was found in some spelling, and is searched from in that one.
          rcases Path.isIn_iff.1 ih with ⟨x, hx, hspelled⟩
          exact hclosed x (.inr hx) _ (hedge.of_same hspelled)
    rcases Path.isIn_iff.1 hfound with ⟨x, hx, hspelled⟩
    exact ⟨x, hx, Path.same_trans hsame hspelled⟩

end

end DependencyIndex

end GraphText

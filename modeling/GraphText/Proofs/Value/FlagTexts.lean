import GraphText.Proofs.Value.Flags

/-!
# Texts that name flags

Which texts a table of flags reads, and as what. A text mentions names, one
between any two of its bars, and it is read if every name that it mentions is one
of the table. What is read is the union of the flags that are mentioned, so it
depends on which names are mentioned, and neither on their order nor on how often
they are.

A blank text is the exception. It mentions nothing but the empty name, which no
flag has, and is read as no bits at all. Two blanks with a bar between them
mention the same, and are not read.

The names of a table have to be told apart for this: two flags of one name, a
name with a bar in it and a name that begins with a blank could not all be read.
The bits are free. Flags may overlap, contain each other or have no bits.

## Main definitions

* `FlagTable.IsNamed`: the names of a table can be told apart.
* `FlagTable.mentioned`: the names in a text.
* `FlagTable.unionOf`: the flags of some names, all together.
* `FlagTable.IsUnion`: bits that are those of some flags.

## Theorems

* `FlagTable.decode_eq_ok_iff`: which texts are read, and as what.
* `FlagTable.covered_eq_iff`: which bits the flags in them make up.
* `FlagTable.flags_coded`: the two directions between bits and texts.
-/

namespace GraphText

namespace Text

variable {cs : List Char}

/-- A text without a separator is one piece. -/
theorem pieces_of_not_mem {sep : Char} (h : sep ∉ cs) : pieces sep cs = [cs] := by
  induction cs with
  | nil => rfl
  | cons c cs ih =>
      have hc : c ≠ sep := fun heq => h (heq ▸ List.mem_cons_self)
      rw [pieces, if_neg hc, ih fun hmem => h (List.mem_cons_of_mem _ hmem)]

theorem trimmed_eq_nil_iff : trimmed cs = [] ↔ ∀ c ∈ cs, isBlank c = true := by
  refine ⟨isBlank_of_trimmed_eq_nil, fun h => ?_⟩
  rw [trimmed, List.dropWhile_eq_nil_iff.2 h]
  rfl

theorem dropWhile_isBlank (h : ∀ c ∈ cs.head?, isBlank c = false) : cs.dropWhile isBlank = cs := by
  cases cs with
  | nil => rfl
  | cons c cs => rw [List.dropWhile_cons_of_neg (by simp [h c rfl])]

/-- A text without blanks at its ends is not changed by taking them away. -/
theorem trimmed_eq_self (hfirst : ∀ c ∈ cs.head?, isBlank c = false)
    (hlast : ∀ c ∈ cs.getLast?, isBlank c = false) : trimmed cs = cs := by
  rw [trimmed, dropWhile_isBlank hfirst, dropWhile_isBlank, List.reverse_reverse]
  rwa [List.head?_reverse]

end Text

namespace FlagTable

/-- The names of a table can be told apart in a text: they are different, none is empty, none has a
    bar in it, and none has a blank at one of its ends. -/
structure IsNamed (table : FlagTable) : Prop where
  distinct : (table.map Prod.fst).Nodup
  nonempty : ∀ name ∈ table.map Prod.fst, name ≠ ""
  whole : ∀ name ∈ table.map Prod.fst, '|' ∉ name.toList
  first : ∀ name ∈ table.map Prod.fst, ∀ c ∈ name.toList.head?, Text.isBlank c = false
  last : ∀ name ∈ table.map Prod.fst, ∀ c ∈ name.toList.getLast?, Text.isBlank c = false

/-- The names in a text: what stands between its bars, without the blanks around it. -/
def mentioned (text : String) : List String :=
  (Text.pieces '|' text.toList).map fun piece => String.ofList (Text.trimmed piece)

/-- Whether there is nothing but blanks in a text. -/
def IsBlank (text : String) : Prop :=
  ∀ c ∈ text.toList, Text.isBlank c = true

/-- The bits of all the flags that have one of these names. -/
def unionOf (table : FlagTable) (names : List String) : UInt32 :=
  Bits.union ((table.filter fun entry => entry.1 ∈ names).map Prod.snd)

/-- The bits are those of some flags of the table. -/
def IsUnion (table : FlagTable) (bits : UInt32) : Prop :=
  ∃ named : FlagTable, named ⊆ table ∧ bits = Bits.union (named.map Prod.snd)

variable {table : FlagTable} {bits flag : UInt32} {name text text' : String} {i : Nat}

theorem has_unionOf {names : List String} :
    Bits.Has (table.unionOf names) i ↔ ∃ entry ∈ table, entry.1 ∈ names ∧ Bits.Has entry.2 i := by
  rw [unionOf, has_union_filter]
  simp only [decide_eq_true_eq]

theorem isUnion_unionOf (table : FlagTable) (names : List String) :
    table.IsUnion (table.unionOf names) :=
  ⟨_, List.filter_sublist.subset, rfl⟩

/-- The flags in some bits make them up if and only if some flags do. -/
theorem covered_eq_iff : table.covered bits = bits ↔ table.IsUnion bits := by
  constructor
  · intro h
    exact ⟨_, List.filter_sublist.subset, h.symm⟩
  · rintro ⟨named, hnamed, rfl⟩
    exact covered_union hnamed

/-- A name is looked up as what it is declared as. -/
theorem find?_eq_some_iff (h : table.IsNamed) :
    table.find? name = some flag ↔ (name, flag) ∈ table := by
  constructor
  · intro hfind
    rw [find?] at hfind
    split at hfind
    · cases hfind
    · exact mem_of_lookup hfind
  · intro hmem
    have hnonempty : name ≠ "" := h.nonempty name (List.mem_map_of_mem hmem)
    rw [find?, if_neg hnonempty, List.lookup_eq_some_iff]
    rcases List.append_of_mem hmem with ⟨before, after, rfl⟩
    refine ⟨before, after, rfl, fun entry hentry => ?_⟩
    -- No name is declared twice.
    have hdistinct := h.distinct
    rw [List.map_append, List.map_cons, List.nodup_append] at hdistinct
    have hne := hdistinct.2.2 entry.1 (List.mem_map_of_mem hentry) name List.mem_cons_self
    simpa using hne.symm

theorem find?_isSome_iff (h : table.IsNamed) :
    (table.find? name).isSome = true ↔ name ∈ table.map Prod.fst := by
  rw [Option.isSome_iff_exists]
  simp only [find?_eq_some_iff h, List.mem_map, Prod.exists, exists_and_right, exists_eq_right]

/-- Pieces are read if each of them names a flag, and then as all these flags. -/
theorem decodePieces_eq_ok_iff {ps : List (List Char)} :
    decodePieces table text ps = .ok bits ↔
      (∀ p ∈ ps, (table.find? (String.ofList (Text.trimmed p))).isSome = true) ∧
        bits = Bits.union
          (ps.map fun p => (table.find? (String.ofList (Text.trimmed p))).getD 0) := by
  induction ps generalizing bits with
  | nil =>
      rw [decodePieces, Except.ok.injEq]
      exact ⟨fun h => ⟨List.forall_mem_nil _, h.symm⟩, fun h => h.2.symm⟩
  | cons p ps ih =>
      rw [decodePieces, List.forall_mem_cons, List.map_cons]
      -- A piece without a flag is an error, whatever comes behind it.
      cases hfind : table.find? (String.ofList (Text.trimmed p)) with
      | none => simp
      | some flag =>
          simp only [Option.isSome_some, true_and, Option.getD_some]
          constructor
          · intro h
            rcases map_eq_ok h with ⟨others, hothers, rfl⟩
            rcases ih.1 hothers with ⟨hall, rfl⟩
            exact ⟨hall, rfl⟩
          · rintro ⟨hall, rfl⟩
            rw [ih.2 ⟨hall, rfl⟩]
            rfl

/-- A blank text mentions the empty name alone. -/
theorem mentioned_of_isBlank (h : IsBlank text) : mentioned text = [""] := by
  have hbar : '|' ∉ text.toList := by
    intro hmem
    have hblank := h '|' hmem
    revert hblank
    decide
  rw [mentioned, Text.pieces_of_not_mem hbar, List.map_singleton, Text.trimmed_eq_nil_iff.2 h]

/-- A text is read if it is blank or mentions declared names only, and then as the union of the
    flags that it mentions. -/
theorem decode_eq_ok_iff (h : table.IsNamed) :
    table.decode text = .ok bits ↔
      (IsBlank text ∨ ∀ name ∈ mentioned text, name ∈ table.map Prod.fst) ∧
        bits = table.unionOf (mentioned text) := by
  by_cases hblank : IsBlank text
  · -- The empty name names no flag.
    have hnone : table.unionOf (mentioned text) = 0 := by
      refine Bits.ext fun i => iff_of_false (fun hi => ?_) (Bits.not_has_zero i)
      rcases has_unionOf.1 hi with ⟨entry, hentry, hname, -⟩
      rw [mentioned_of_isBlank hblank, List.mem_singleton] at hname
      exact h.nonempty entry.1 (List.mem_map_of_mem hentry) hname
    rw [decode, if_pos (Text.trimmed_eq_nil_iff.2 hblank), hnone, Except.ok.injEq]
    exact ⟨fun heq => ⟨.inl hblank, heq.symm⟩, fun hread => hread.2.symm⟩
  · have hunion : Bits.union ((Text.pieces '|' text.toList).map fun p =>
        (table.find? (String.ofList (Text.trimmed p))).getD 0) =
          table.unionOf (mentioned text) := by
      refine Bits.ext fun i => ?_
      rw [Bits.has_union, has_unionOf]
      constructor
      · rintro ⟨flag, hflag, hi⟩
        rcases List.mem_map.1 hflag with ⟨p, hp, rfl⟩
        cases hfind : table.find? (String.ofList (Text.trimmed p)) with
        | none =>
            rw [hfind] at hi
            exact absurd hi (Bits.not_has_zero i)
        | some flag =>
            rw [hfind] at hi
            exact ⟨_, (find?_eq_some_iff h).1 hfind, List.mem_map_of_mem hp, hi⟩
      · rintro ⟨entry, hentry, hname, hi⟩
        rcases List.mem_map.1 hname with ⟨p, hp, hname⟩
        refine ⟨entry.2, List.mem_map.2 ⟨p, hp, ?_⟩, hi⟩
        rw [hname, (find?_eq_some_iff h).2 hentry, Option.getD_some]
    rw [decode, if_neg fun hnil => hblank (Text.trimmed_eq_nil_iff.1 hnil), decodePieces_eq_ok_iff,
      hunion, or_iff_right hblank, mentioned, List.forall_mem_map]
    simp only [find?_isSome_iff h]

/-- A declared name is read as its flag. -/
theorem IsNamed.isDeclared (h : table.IsNamed) : table.IsDeclared := by
  rintro ⟨name, flag⟩ hentry
  have hmem : name ∈ table.map Prod.fst := List.mem_map_of_mem hentry
  have hmentioned : mentioned name = [name] := by
    rw [mentioned, Text.pieces_of_not_mem (h.whole name hmem), List.map_singleton,
      Text.trimmed_eq_self (h.first name hmem) (h.last name hmem), String.ofList_toList]
  rw [decode_eq_ok_iff h, hmentioned]
  refine ⟨.inr fun other hother => List.mem_singleton.1 hother ▸ hmem, Bits.ext fun i => ?_⟩
  rw [has_unionOf]
  constructor
  · exact fun hi => ⟨_, hentry, List.mem_cons_self, hi⟩
  · rintro ⟨other, hother, hname, hi⟩
    -- The name is looked up as one flag only.
    have hother : (name, other.2) ∈ table := List.mem_singleton.1 hname ▸ hother
    have hsame := ((find?_eq_some_iff h).2 hother).symm.trans ((find?_eq_some_iff h).2 hentry)
    rwa [Option.some.inj hsame] at hi

/-- Texts that mention the same names are read as the same bits, if they are read. Only a blank text
    can be read when the other one is not. -/
theorem decode_eq_of_mentioned (h : table.IsNamed)
    (hsame : ∀ name, name ∈ mentioned text ↔ name ∈ mentioned text')
    (hread : table.decode text = .ok bits) :
    (∀ bits', table.decode text' = .ok bits' → bits' = bits) ∧
      (¬ IsBlank text → table.decode text' = .ok bits) := by
  rcases (decode_eq_ok_iff h).1 hread with ⟨haccepted, rfl⟩
  have hunion : table.unionOf (mentioned text') = table.unionOf (mentioned text) := by
    simp only [unionOf, hsame]
  refine ⟨fun bits' hread' => ?_, fun hblank => ?_⟩
  · rw [((decode_eq_ok_iff h).1 hread').2, hunion]
  · refine (decode_eq_ok_iff h).2 ⟨.inr fun name hname => ?_, hunion.symm⟩
    exact (haccepted.resolve_left hblank) name ((hsame name).2 hname)

/-- Bits are written as a text that is read as the union of the flags in them, which is all of them
    if and only if some flags make them up. A text is read if it is blank or mentions declared names
    only, and then as bits that some flags make up; which ones these are depends on which names are
    mentioned, and not on their order or on how often. -/
theorem flags_coded (h : table.IsNamed) :
    (∀ bits, table.decode (table.encode bits) = .ok (table.covered bits) ∧
      (table.decode (table.encode bits) = .ok bits ↔ table.IsUnion bits)) ∧
    (∀ text, (∃ bits, table.decode text = .ok bits) ↔
      IsBlank text ∨ ∀ name ∈ mentioned text, name ∈ table.map Prod.fst) ∧
    (∀ text bits, table.decode text = .ok bits →
      table.IsUnion bits ∧ bits = table.unionOf (mentioned text)) ∧
    ∀ text text' bits, (∀ name, name ∈ mentioned text ↔ name ∈ mentioned text') →
      table.decode text = .ok bits →
      (∀ bits', table.decode text' = .ok bits' → bits' = bits) ∧
        (¬ IsBlank text → table.decode text' = .ok bits) := by
  refine ⟨fun bits => ?_, fun text => ?_, fun text bits hread => ?_,
    fun text text' bits hsame hread => decode_eq_of_mentioned h hsame hread⟩
  · have hback := decode_encode_eq h.isDeclared bits
    refine ⟨hback, ?_⟩
    rw [hback, Except.ok.injEq, covered_eq_iff]
  · simp only [decode_eq_ok_iff h, exists_and_left, exists_eq, and_true]
  · rcases (decode_eq_ok_iff h).1 hread with ⟨-, rfl⟩
    exact ⟨isUnion_unionOf table _, rfl⟩

/-- Flags that overlap, contain others and have no bits. -/
def overlapping : FlagTable :=
  [("NONE", 0), ("AB", 3), ("A", 1), ("B", 2), ("C", 4), ("BC", 6), ("HIGH", 0x80000000)]

/-- A bit that no flag has is lost. Names may be repeated and stand in any order. -/
theorem flags_coded_overlapping :
    overlapping.IsNamed ∧ overlapping.decode (overlapping.encode 0x17) = .ok 7 ∧
      overlapping.decode " BC | A|A " = .ok 7 ∧ overlapping.IsUnion 7 ∧
      overlapping.decode "A|BC" = .ok 7 := by
  have hedges : ∀ name ∈ overlapping.map Prod.fst, name.toList.head?.any Text.isBlank = false ∧
      name.toList.getLast?.any Text.isBlank = false := by decide
  have hnamed : overlapping.IsNamed :=
    ⟨by decide, by decide, by decide,
      fun name hname => (Option.any_eq_false _ _).1 (hedges name hname).1,
      fun name hname => (Option.any_eq_false _ _).1 (hedges name hname).2⟩
  have hread : overlapping.decode " BC | A|A " = .ok 7 := rfl
  -- Both texts mention the same names, so one is read because the other is.
  have hblank : ¬ IsBlank " BC | A|A " := fun h => absurd (h 'B' (by decide)) (by decide)
  have hmentioned : mentioned " BC | A|A " = ["BC", "A", "A"] ∧ mentioned "A|BC" = ["A", "BC"] :=
    ⟨rfl, rfl⟩
  have hsame : ∀ name, name ∈ mentioned " BC | A|A " ↔ name ∈ mentioned "A|BC" := fun name => by
    rw [hmentioned.1, hmentioned.2]
    simp [or_comm]
  rcases flags_coded hnamed with ⟨hwritten, -, hunion, hreordered⟩
  exact ⟨hnamed, (hwritten 0x17).1, hread, (hunion _ 7 hread).1,
    (hreordered _ _ 7 hsame hread).2 hblank⟩

end FlagTable

end GraphText

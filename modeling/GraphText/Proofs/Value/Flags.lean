import GraphText.Value.Flags
import Mathlib.Data.List.TakeWhile

/-!
# Flags and their names

Bits are written as names and read as the union of what the names stand for. Two
things could go wrong on the way. A name that holds a bar is cut, but as long as
each name on its own is read as its flag, the pieces of all of them are read as
all the flags. And naming passes over a flag whose bits have all been named
before, so it has to be seen that nothing is lost by that.

What comes back is therefore the union of all the declared flags that the bits
contain. Bits that were read are a union of declared flags, and come back as
they are.

## Main definitions

* `FlagTable.IsDeclared`: flags that are read by their names.
* `Bits.Has`, `Bits.union`: bits one by one, and all together.
* `FlagTable.covered`: the union of the flags that some bits contain.

## Theorems

* `Text.pieces_joined`: cutting what was put together.
* `FlagTable.decode_intercalate`: what is read of several names.
* `FlagTable.decode_encode_eq`: what is read back of written bits.
* `FlagTable.covered_of_decode`: bits that were read are covered by flags.
* `FlagTable.covered_union`: declared flags together are covered by flags.
-/

namespace GraphText

namespace Text

/-- A separator between two texts separates their pieces. -/
theorem pieces_append (sep : Char) (p cs : List Char) :
    pieces sep (p ++ sep :: cs) = pieces sep p ++ pieces sep cs := by
  induction p with
  | nil =>
      have hempty : pieces sep (sep :: cs) = [] :: pieces sep cs := by rw [pieces, if_pos rfl]
      exact hempty
  | cons c p ih =>
      rw [List.cons_append, pieces, pieces, ih]
      by_cases hc : c = sep
      · rw [if_pos hc, if_pos hc, List.cons_append]
      · rw [if_neg hc, if_neg hc]
        rcases List.exists_cons_of_ne_nil (pieces_ne_nil sep p) with ⟨q, qs, hp⟩
        rw [hp]
        rfl

/-- Texts that are put together are cut into the pieces that each of them is cut into. -/
theorem pieces_joined {sep : Char} {ps : List (List Char)} (hne : ps ≠ []) :
    pieces sep (joined sep ps) = ps.flatMap (pieces sep) := by
  induction ps with
  | nil => exact absurd rfl hne
  | cons p ps ih =>
      rw [List.flatMap_cons]
      cases ps with
      | nil => exact (List.append_nil _).symm
      | cons q qs => rw [joined, pieces_append, ih (List.cons_ne_nil q qs)]

theorem toList_intercalate_bar (names : List String) :
    (String.intercalate "|" names).toList = joined '|' (names.map String.toList) := by
  induction names with
  | nil => rfl
  | cons name names ih =>
      cases names with
      | nil => rw [String.intercalate_singleton]; rfl
      | cons next names =>
          rw [String.intercalate_cons_cons, String.toList_append, String.toList_append, ih,
            List.append_assoc]
          rfl

/-- Nothing is left of a text only if it holds nothing but blanks. -/
theorem isBlank_of_trimmed_eq_nil {cs : List Char} (h : trimmed cs = []) :
    ∀ c ∈ cs, isBlank c = true := by
  rw [trimmed, List.reverse_eq_nil_iff, List.dropWhile_eq_nil_iff] at h
  intro c hc
  rw [← List.takeWhile_append_dropWhile (p := isBlank) (l := cs), List.mem_append] at hc
  rcases hc with hc | hc
  · exact List.mem_takeWhile_imp hc
  · exact h c (List.mem_reverse.2 hc)

end Text

namespace Bits

/-- Whether a number has a bit. -/
def Has (b : UInt32) (i : Nat) : Prop :=
  b.toBitVec.getLsbD i = true

/-- The bits of any of these numbers. -/
def union (bs : List UInt32) : UInt32 :=
  bs.foldr (· ||| ·) 0

variable {a b : UInt32} {i : Nat}

theorem ext (h : ∀ i, Has a i ↔ Has b i) : a = b := by
  refine UInt32.eq_of_toBitVec_eq (BitVec.eq_of_getLsbD_eq fun i _ => ?_)
  rw [Bool.eq_iff_iff]
  exact h i

theorem has_or : Has (a ||| b) i ↔ Has a i ∨ Has b i := by
  rw [Has, UInt32.toBitVec_or, BitVec.getLsbD_or, Bool.or_eq_true]
  rfl

theorem has_and : Has (a &&& b) i ↔ Has a i ∧ Has b i := by
  rw [Has, UInt32.toBitVec_and, BitVec.getLsbD_and, Bool.and_eq_true]
  rfl

/-- What is left of some bits when others are taken away. -/
theorem has_and_not : Has (a &&& ~~~b) i ↔ Has a i ∧ ¬ Has b i := by
  rw [has_and]
  refine and_congr_right fun ha => ?_
  have hi : i < 32 := BitVec.lt_of_getLsbD ha
  rw [Has, UInt32.toBitVec_not, BitVec.getLsbD_not, Has]
  simp [hi]

theorem not_has_zero (i : Nat) : ¬ Has 0 i := by
  have hzero : (0 : UInt32).toBitVec = 0#32 := rfl
  rw [Has, hzero, BitVec.getLsbD_zero]
  exact Bool.false_ne_true

theorem and_eq_right_iff : a &&& b = b ↔ ∀ i, Has b i → Has a i := by
  constructor
  · intro h i hb
    rw [← h, has_and] at hb
    exact hb.1
  · intro h
    refine ext fun i => ?_
    rw [has_and]
    exact ⟨And.right, fun hb => ⟨h i hb, hb⟩⟩

theorem has_union {bs : List UInt32} : Has (union bs) i ↔ ∃ b ∈ bs, Has b i := by
  induction bs with
  | nil => simp [union, not_has_zero]
  | cons b bs ih =>
      have hcons : union (b :: bs) = b ||| union bs := rfl
      rw [hcons, has_or, ih]
      simp

end Bits

namespace FlagTable

/-- Every flag is what its name is read as. -/
def IsDeclared (table : FlagTable) : Prop :=
  ∀ entry ∈ table, table.decode entry.1 = .ok entry.2

/-- The bits of all the flags that some bits contain. -/
def covered (table : FlagTable) (bits : UInt32) : UInt32 :=
  Bits.union ((table.filter fun entry => bits &&& entry.2 = entry.2).map Prod.snd)

variable {table : FlagTable} {bits unnamed flag : UInt32} {name : String} {i : Nat}

/-- The bits of the flags that are picked out of a table. -/
theorem has_union_filter {p : String × UInt32 → Bool} :
    Bits.Has (Bits.union ((table.filter p).map Prod.snd)) i ↔
      ∃ entry ∈ table, p entry = true ∧ Bits.Has entry.2 i := by
  rw [Bits.has_union]
  constructor
  · rintro ⟨flag, hflag, hi⟩
    rcases List.mem_map.1 hflag with ⟨entry, hentry, rfl⟩
    rw [List.mem_filter] at hentry
    exact ⟨entry, hentry.1, hentry.2, hi⟩
  · rintro ⟨entry, hentry, hp, hi⟩
    exact ⟨entry.2, List.mem_map.2 ⟨entry, List.mem_filter.2 ⟨hentry, hp⟩, rfl⟩, hi⟩

theorem has_covered : Bits.Has (table.covered bits) i ↔
    ∃ entry ∈ table, bits &&& entry.2 = entry.2 ∧ Bits.Has entry.2 i := by
  rw [covered, has_union_filter]
  simp only [decide_eq_true_eq]

/-- Declared flags together are covered by the flags that they contain. -/
theorem covered_union {named : FlagTable} (hnamed : named ⊆ table) :
    table.covered (Bits.union (named.map Prod.snd)) = Bits.union (named.map Prod.snd) := by
  refine Bits.ext fun i => ?_
  rw [has_covered]
  constructor
  · rintro ⟨entry, -, hentry, hi⟩
    exact Bits.and_eq_right_iff.1 hentry i hi
  · intro hi
    rcases Bits.has_union.1 hi with ⟨flag, hflag, hi⟩
    rcases List.mem_map.1 hflag with ⟨entry, hentry, rfl⟩
    refine ⟨entry, hnamed hentry, Bits.and_eq_right_iff.2 fun j hj => ?_, hi⟩
    exact Bits.has_union.2 ⟨entry.2, hflag, hj⟩

theorem mem_of_lookup (h : table.lookup name = some flag) : (name, flag) ∈ table := by
  rcases List.lookup_eq_some_iff.1 h with ⟨before, after, rfl, -⟩
  exact List.mem_append_right _ List.mem_cons_self

/-- Bits are written as the names of flags that they contain, none of them without bits, and no bit
    is passed over that a flag in the bits has. -/
theorem exists_named (table : FlagTable) (bits unnamed : UInt32) :
    ∃ named : FlagTable, namesFrom bits unnamed table = named.map Prod.fst ∧
      (∀ entry ∈ named, entry ∈ table ∧ bits &&& entry.2 = entry.2 ∧ entry.2 ≠ 0) ∧
      ∀ i, Bits.Has unnamed i → ∀ entry ∈ table, bits &&& entry.2 = entry.2 →
        Bits.Has entry.2 i → ∃ entry ∈ named, Bits.Has entry.2 i := by
  induction table generalizing unnamed with
  | nil => exact ⟨[], rfl, nofun, nofun⟩
  | cons first rest ih =>
      rw [namesFrom]
      split
      next hnamed =>
        rcases ih (unnamed &&& ~~~first.2) with ⟨named, hnames, hmem, hcovers⟩
        refine ⟨first :: named, by rw [hnames, List.map_cons], fun entry hentry => ?_,
          fun i hi entry hentry hbits hi' => ?_⟩
        · rcases List.mem_cons.1 hentry with rfl | hentry
          · refine ⟨List.mem_cons_self, hnamed.1, fun hzero => hnamed.2 ?_⟩
            rw [hzero, UInt32.and_zero]
          · rcases hmem entry hentry with ⟨hrest, hentry⟩
            exact ⟨List.mem_cons_of_mem _ hrest, hentry⟩
        · by_cases hfirst : Bits.Has first.2 i
          · exact ⟨first, List.mem_cons_self, hfirst⟩
          · have hrest : entry ∈ rest := by
              rcases List.mem_cons.1 hentry with rfl | hentry
              · exact absurd hi' hfirst
              · exact hentry
            rcases hcovers i (Bits.has_and_not.2 ⟨hi, hfirst⟩) entry hrest hbits hi' with
              ⟨other, hother, hi''⟩
            exact ⟨other, List.mem_cons_of_mem _ hother, hi''⟩
      next hpassed =>
        rcases ih unnamed with ⟨named, hnames, hmem, hcovers⟩
        refine ⟨named, hnames, fun entry hentry => ?_, fun i hi entry hentry hbits hi' => ?_⟩
        · rcases hmem entry hentry with ⟨hrest, hentry⟩
          exact ⟨List.mem_cons_of_mem _ hrest, hentry⟩
        · -- The flag that was passed over has no bit that is still unnamed.
          have hrest : entry ∈ rest := by
            rcases List.mem_cons.1 hentry with rfl | hentry
            · refine absurd ⟨hbits, fun hzero => ?_⟩ hpassed
              exact Bits.not_has_zero i (hzero ▸ Bits.has_and.2 ⟨hi, hi'⟩)
            · exact hentry
          exact hcovers i hi entry hrest hbits hi'

theorem decodePieces_append {text text' : String} {ps qs : List (List Char)} {a b : UInt32}
    (hps : decodePieces table text ps = .ok a) (hqs : decodePieces table text' qs = .ok b) :
    decodePieces table text' (ps ++ qs) = .ok (a ||| b) := by
  induction ps generalizing a with
  | nil =>
      cases hps
      rw [List.nil_append, hqs, UInt32.zero_or]
  | cons p ps ih =>
      rw [decodePieces] at hps
      rw [List.cons_append, decodePieces]
      cases hfind : table.find? (String.ofList (Text.trimmed p)) with
      | none => simp [hfind] at hps
      | some flag =>
          simp only [hfind] at hps ⊢
          -- The pieces behind the first are read by themselves.
          cases hrest : decodePieces table text ps with
          | error e => simp [hrest, Except.map] at hps
          | ok others =>
              simp only [hrest, Except.map, Except.ok.injEq] at hps
              rw [ih hrest, ← hps, UInt32.or_assoc]
              rfl

/-- What is read of the pieces of a name that is read as a flag with bits. -/
theorem decodePieces_of_decode (h : table.decode name = .ok flag) (hflag : flag ≠ 0) :
    Text.trimmed name.toList ≠ [] ∧
      decodePieces table name (Text.pieces '|' name.toList) = .ok flag := by
  unfold decode at h
  split at h
  · cases h
    exact absurd rfl hflag
  next hsome => exact ⟨hsome, h⟩

/-- Names that are put together are read as the union of the flags. -/
theorem decode_intercalate {named : FlagTable}
    (h : ∀ entry ∈ named, table.decode entry.1 = .ok entry.2 ∧ entry.2 ≠ 0) :
    table.decode (String.intercalate "|" (named.map Prod.fst)) =
      .ok (Bits.union (named.map Prod.snd)) := by
  have hpieces : ∀ text, decodePieces table text
      ((named.map fun entry => entry.1.toList).flatMap (Text.pieces '|')) =
        .ok (Bits.union (named.map Prod.snd)) := by
    intro text
    induction named with
    | nil => rfl
    | cons entry named ih =>
        rcases h entry List.mem_cons_self with ⟨hentry, hbits⟩
        rw [List.map_cons, List.flatMap_cons]
        exact decodePieces_append (decodePieces_of_decode hentry hbits).2
          (ih fun other hother => h other (List.mem_cons_of_mem _ hother))
  cases named with
  | nil => rfl
  | cons entry named =>
      have hjoined := Text.toList_intercalate_bar ((entry :: named).map Prod.fst)
      rw [List.map_map] at hjoined
      -- The first name begins with what is no blank.
      have hsome : Text.trimmed
          (String.intercalate "|" ((entry :: named).map Prod.fst)).toList ≠ [] := by
        intro hnil
        have hblank : ∀ c ∈ entry.1.toList, Text.isBlank c = true := by
          intro c hc
          refine Text.isBlank_of_trimmed_eq_nil hnil c ?_
          rw [hjoined]
          cases named with
          | nil => exact hc
          | cons next named => exact List.mem_append_left _ hc
        rcases h entry List.mem_cons_self with ⟨hentry, hbits⟩
        refine (decodePieces_of_decode hentry hbits).1 ?_
        rw [Text.trimmed, List.dropWhile_eq_nil_iff.2 hblank]
        rfl
      have hne : (entry :: named).map (String.toList ∘ Prod.fst) ≠ [] := List.cons_ne_nil _ _
      rw [decode, if_neg hsome, hjoined, Text.pieces_joined hne]
      exact hpieces _

/-- Written bits are read as the union of the flags that they contain. -/
theorem decode_encode_eq (h : table.IsDeclared) (bits : UInt32) :
    table.decode (table.encode bits) = .ok (table.covered bits) := by
  rcases exists_named table bits bits with ⟨named, hnames, hnamed, hcovers⟩
  have hread : ∀ entry ∈ named, table.decode entry.1 = .ok entry.2 ∧ entry.2 ≠ 0 := by
    intro entry hentry
    rcases hnamed entry hentry with ⟨hmem, -, hbits⟩
    exact ⟨h entry hmem, hbits⟩
  rw [encode, names, hnames, decode_intercalate hread]
  refine congrArg Except.ok (Bits.ext fun i => ?_)
  -- A bit that is read is one of a contained flag. The other way round, a contained flag may have
  -- been passed over, but then flags that are named have all its bits.
  rw [Bits.has_union, has_covered]
  constructor
  · rintro ⟨b, hb, hi⟩
    rcases List.mem_map.1 hb with ⟨entry, hentry, rfl⟩
    rcases hnamed entry hentry with ⟨hmem, hbits, -⟩
    exact ⟨entry, hmem, hbits, hi⟩
  · rintro ⟨entry, hmem, hbits, hi⟩
    have hall : Bits.Has bits i := Bits.and_eq_right_iff.1 hbits i hi
    rcases hcovers i hall entry hmem hbits hi with ⟨other, hother, hi⟩
    exact ⟨other.2, List.mem_map.2 ⟨other, hother, rfl⟩, hi⟩

/-- Bits that were read of pieces contain only bits of flags that they contain. -/
theorem covered_of_decodePieces {text : String} {ps : List (List Char)}
    (h : decodePieces table text ps = .ok bits) :
    ∀ i, Bits.Has bits i → ∃ entry ∈ table, bits &&& entry.2 = entry.2 ∧ Bits.Has entry.2 i := by
  induction ps generalizing bits with
  | nil =>
      cases h
      exact fun i hi => absurd hi (Bits.not_has_zero i)
  | cons p ps ih =>
      rw [decodePieces] at h
      cases hfind : table.find? (String.ofList (Text.trimmed p)) with
      | none => simp [hfind] at h
      | some flag =>
          simp only [hfind] at h
          cases hrest : decodePieces table text ps with
          | error e => simp [hrest, Except.map] at h
          | ok others =>
              simp only [hrest, Except.map, Except.ok.injEq] at h
              have hmem : (String.ofList (Text.trimmed p), flag) ∈ table := by
                rw [find?] at hfind
                split at hfind
                · cases hfind
                · exact mem_of_lookup hfind
              intro i hi
              rw [← h] at hi ⊢
              -- The bit is one of the first flag or one of the others, and more bits contain no
              -- fewer flags.
              rcases Bits.has_or.1 hi with hi | hi
              · refine ⟨_, hmem, Bits.and_eq_right_iff.2 fun j hj => Bits.has_or.2 (.inl hj), hi⟩
              · rcases ih hrest i hi with ⟨entry, hentry, hbits, hi⟩
                refine ⟨entry, hentry, Bits.and_eq_right_iff.2 fun j hj => ?_, hi⟩
                exact Bits.has_or.2 (.inr (Bits.and_eq_right_iff.1 hbits j hj))

/-- Bits that were read are covered by the flags that they contain. -/
theorem covered_of_decode {text : String} (h : table.decode text = .ok bits) :
    table.covered bits = bits := by
  have hflags : ∀ i, Bits.Has bits i →
      ∃ entry ∈ table, bits &&& entry.2 = entry.2 ∧ Bits.Has entry.2 i := by
    unfold decode at h
    split at h
    · cases h
      exact fun i hi => absurd hi (Bits.not_has_zero i)
    · exact covered_of_decodePieces h
  refine Bits.ext fun i => ⟨fun hi => ?_, fun hi => has_covered.2 (hflags i hi)⟩
  rcases has_covered.1 hi with ⟨entry, -, hbits, hi⟩
  exact Bits.and_eq_right_iff.1 hbits i hi

end FlagTable

end GraphText

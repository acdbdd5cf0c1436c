import GraphText.Writer
import Mathlib.Data.List.Basic

/-!
# What an output takes

Events are carried out one by one, but what they leave on an output is one text.
An output without a limit takes all of it. On one with a limit the text is cut
where the room ends, which may be between two events, within the text of one or
within a character, and nothing is put out behind the cut. How the text is
divided into events makes no difference.

Labels are the one thing that an output remembers besides its bytes. They are
numbers, given to objects in the order in which these are labelled first. So the
same events put out other numbers on an output that has given some already. What
they put out does not depend on anything else, and an output that has numbered
all objects beforehand in the order of another one labels them like that one.

## Main definitions

* `Leaves`: the text that events leave, with and without a limit.

## Theorems

* `Sink.perform_append`: events and then more events.
* `Sink.perform_texts`: a text may be put out in two pieces.
* `exists_leaves`: whatever happens, it leaves a text, and the same one if all
  labels have been given before.
-/

namespace GraphText.Writer

variable {σ : Type}

theorem write_of_unlimited {s : Sink} (hlimit : s.limit = none) (text : String) :
    s.write text = ({ s with bytes := s.bytes ++ text.toByteArray }, true) := by
  unfold Sink.write Sink.room
  simp only [hlimit, ByteArray.extract_zero_size, beq_self_eq_true]

theorem extract_of_size_le {bytes : ByteArray} {n : Nat} (h : bytes.size ≤ n) :
    bytes.extract 0 n = bytes := by
  apply ByteArray.ext
  rw [ByteArray.data_extract]
  exact Array.extract_eq_self_of_le h

/-- The first bytes of two parts, if they end within the first part. -/
theorem extract_append_of_le {first second : ByteArray} {n : Nat} (h : n ≤ first.size) :
    (first ++ second).extract 0 n = first.extract 0 n := by
  rw [ByteArray.extract_append, Nat.sub_eq_zero_of_le h, Nat.zero_sub,
    ByteArray.extract_eq_empty_iff.2 (Nat.min_le_left _ _), ByteArray.append_empty]

/-- The first bytes of two parts, if they end behind the first part. -/
theorem extract_append_of_ge {first second : ByteArray} {n : Nat} (h : first.size ≤ n) :
    (first ++ second).extract 0 n = first ++ second.extract 0 (n - first.size) := by
  rw [ByteArray.extract_append, extract_of_size_le h, Nat.zero_sub]

namespace Sink

variable {bytes : ByteArray} {labelled : List Ref} {room : Nat}

/-- With room for a text, all of it is put out, and so much room is taken. -/
theorem write_of_room {text : String} (h : text.toByteArray.size ≤ room) :
    (⟨bytes, some (bytes.size + room), labelled⟩ : Sink).write text =
      (⟨bytes ++ text.toByteArray, some ((bytes ++ text.toByteArray).size +
        (room - text.toByteArray.size)), labelled⟩, true) := by
  have hfits : (⟨bytes, some (bytes.size + room), labelled⟩ : Sink).room text.toByteArray.size =
      text.toByteArray.size := by
    simp only [Sink.room]
    omega
  have hroom : bytes.size + room =
      (bytes ++ text.toByteArray).size + (room - text.toByteArray.size) := by
    rw [ByteArray.size_append]
    omega
  simp only [Sink.write, hfits, ByteArray.extract_zero_size, beq_self_eq_true, ← hroom]

/-- Without, as much is put out as there is room for, and that is the last. -/
theorem write_of_no_room {text : String} (h : room < text.toByteArray.size) :
    (⟨bytes, some (bytes.size + room), labelled⟩ : Sink).write text =
      (⟨bytes ++ text.toByteArray.extract 0 room, some (bytes.size + room), labelled⟩, false) := by
  have hfits : (⟨bytes, some (bytes.size + room), labelled⟩ : Sink).room text.toByteArray.size =
      room := by
    simp only [Sink.room]
    omega
  simp only [Sink.write, hfits, beq_eq_false_iff_ne.2 (Nat.ne_of_lt h)]

theorem write_empty (s : Sink) : s.write "" = (s, true) := by
  have hroom : s.room 0 = 0 := by
    unfold Sink.room
    split
    next => rfl
    next => exact Nat.zero_min _
  have hsize : "".toByteArray.size = 0 := rfl
  have hnone : "".toByteArray.extract 0 0 = ByteArray.empty :=
    ByteArray.extract_eq_empty_iff.2 (Nat.min_le_left _ _)
  simp only [Sink.write, hsize, hroom, hnone, ByteArray.append_empty, beq_self_eq_true]

/-- A text that is put out in two pieces is cut where it is cut as a whole. -/
theorem write_append (s : Sink) (first second : String) :
    s.write (first ++ second) =
      match s.write first with
      | (s, true) => s.write second
      | (s, false) => (s, false) := by
  cases hlimit : s.limit with
  | none =>
      rw [write_of_unlimited hlimit, write_of_unlimited hlimit]
      simp only
      rw [write_of_unlimited (s := { s with bytes := s.bytes ++ first.toByteArray }) hlimit,
        String.toByteArray_append, ByteArray.append_assoc]
  | some limit =>
      simp only [Sink.write, Sink.room, hlimit, String.toByteArray_append, ByteArray.size_append]
      -- If the first piece fits, the second one has the room that it leaves. If not, the cut is in
      -- the first piece already.
      by_cases hfits : first.toByteArray.size ≤ limit - s.bytes.size
      · rw [Nat.min_eq_left hfits, beq_self_eq_true, ByteArray.extract_zero_size]
        simp only [ByteArray.size_append]
        have hroom : min (first.toByteArray.size + second.toByteArray.size)
            (limit - s.bytes.size) = first.toByteArray.size +
              min second.toByteArray.size (limit - (s.bytes.size + first.toByteArray.size)) := by
          omega
        rw [hroom, extract_append_of_ge (Nat.le_add_right _ _), Nat.add_sub_cancel_left,
          ByteArray.append_assoc]
        congr 1
        rw [Bool.eq_iff_iff, beq_iff_eq, beq_iff_eq]
        omega
      · have hfirst : min first.toByteArray.size (limit - s.bytes.size) =
            limit - s.bytes.size := by
          omega
        have hwhole : min (first.toByteArray.size + second.toByteArray.size)
            (limit - s.bytes.size) = limit - s.bytes.size := by
          omega
        have hcut : (limit - s.bytes.size == first.toByteArray.size) = false :=
          beq_eq_false_iff_ne.2 (by omega)
        rw [hfirst, hwhole, hcut, extract_append_of_le (by omega)]
        simp only
        congr 1
        exact beq_eq_false_iff_ne.2 (by omega)

/-- Events, and then more events if the output takes all of these. -/
theorem perform_append (s : Sink) (state : σ) (events more : List (Event σ)) :
    s.perform state (events ++ more) =
      match s.perform state events with
      | (s, state, true) => s.perform state more
      | (s, state, false) => (s, state, false) := by
  induction events generalizing s state with
  | nil => rfl
  | cons event events ih =>
      -- Only what is put out can fail.
      cases event with
      | text text =>
          rw [List.cons_append, Sink.perform, Sink.perform]
          rcases s.write text with ⟨s', _ | _⟩
          · rfl
          · exact ih s' state
      | label r =>
          rw [List.cons_append, Sink.perform, Sink.perform]
          rcases s.labelOf r with ⟨s', label⟩
          simp only
          rcases s'.write label with ⟨s'', _ | _⟩
          · rfl
          · exact ih s'' state
      | entered r accepted state' => exact ih s state'
      | exited r state' => exact ih s state'

theorem perform_text (s : Sink) (state : σ) (text : String) :
    s.perform state [.text text] = ((s.write text).1, state, (s.write text).2) := by
  rw [Sink.perform]
  rcases s.write text with ⟨s', _ | _⟩
  · rfl
  · rfl

/-- A text may as well be put out in two pieces. -/
theorem perform_texts (s : Sink) (state : σ) (first second : String) (rest : List (Event σ)) :
    s.perform state (.text (first ++ second) :: rest) =
      s.perform state (.text first :: .text second :: rest) := by
  rw [Sink.perform, Sink.perform, write_append]
  rcases s.write first with ⟨s', _ | _⟩
  · rfl
  · rfl

/-- A label is put out like a text, on an output that knows the label. -/
theorem perform_label (s : Sink) (state : σ) (r : Ref) (rest : List (Event σ)) :
    s.perform state (.label r :: rest) =
      (s.labelOf r).1.perform state (.text (s.labelOf r).2 :: rest) := rfl

end Sink

/-- Events leave a text, on an output with these labels and for a filter in this state: all of it if
    there is room for it, and otherwise as much of it as there is room for. -/
structure Leaves (labelled : List Ref) (state : σ) (events : List (Event σ)) (text : String)
    (labelled' : List Ref) (state' : σ) : Prop where
  unlimited : ∀ bytes, (⟨bytes, none, labelled⟩ : Sink).perform state events =
    (⟨bytes ++ text.toByteArray, none, labelled'⟩, state', true)
  within : ∀ bytes room, text.toByteArray.size ≤ room →
    (⟨bytes, some (bytes.size + room), labelled⟩ : Sink).perform state events =
      (⟨bytes ++ text.toByteArray, some (bytes.size + room), labelled'⟩, state', true)
  beyond : ∀ bytes room, room < text.toByteArray.size →
    ∃ labelled'' state'',
      (⟨bytes, some (bytes.size + room), labelled⟩ : Sink).perform state events =
        (⟨bytes ++ text.toByteArray.extract 0 room, some (bytes.size + room), labelled''⟩, state'',
          false)

namespace Leaves

variable {labelled labelled' : List Ref} {state state' : σ} {events : List (Event σ)}
  {text : String}

theorem nil (labelled : List Ref) (state : σ) : Leaves labelled state [] "" labelled state where
  unlimited bytes := by simp [Sink.perform]
  within bytes room _ := by simp [Sink.perform]
  beyond bytes room h := by simp at h

/-- A text is left in front of what the events behind it leave. -/
theorem cons (h : Leaves labelled state events text labelled' state') (first : String) :
    Leaves labelled state (.text first :: events) (first ++ text) labelled' state' where
  unlimited bytes := by
    rw [Sink.perform, write_of_unlimited rfl, String.toByteArray_append, ← ByteArray.append_assoc]
    exact h.unlimited _
  within bytes room hroom := by
    rw [String.toByteArray_append, ByteArray.size_append] at hroom
    have hfirst : first.toByteArray.size ≤ room := by omega
    have hrest := h.within (bytes ++ first.toByteArray) (room - first.toByteArray.size) (by omega)
    have hsize : (bytes ++ first.toByteArray).size + (room - first.toByteArray.size) =
        bytes.size + room := by
      rw [ByteArray.size_append]
      omega
    rw [Sink.perform, Sink.write_of_room hfirst, String.toByteArray_append,
      ← ByteArray.append_assoc, ← hsize]
    exact hrest
  beyond bytes room hroom := by
    rw [String.toByteArray_append] at hroom ⊢
    -- Either the text is taken and something behind it is not, or the text itself is cut.
    by_cases hfirst : first.toByteArray.size ≤ room
    · have hsize : (bytes ++ first.toByteArray).size + (room - first.toByteArray.size) =
          bytes.size + room := by
        rw [ByteArray.size_append]
        omega
      rw [ByteArray.size_append] at hroom
      rw [Sink.perform, Sink.write_of_room hfirst, extract_append_of_ge hfirst,
        ← ByteArray.append_assoc, ← hsize]
      exact h.beyond (bytes ++ first.toByteArray) (room - first.toByteArray.size) (by omega)
    · rw [Sink.perform, Sink.write_of_no_room (Nat.lt_of_not_le hfirst),
        extract_append_of_le (Nat.le_of_not_le hfirst)]
      exact ⟨labelled, state, rfl⟩

/-- What leaves a text is how events are carried out, whatever they are. -/
theorem of_perform {known : List Ref} {before : σ} {others : List (Event σ)}
    (h : Leaves labelled state events text labelled' state')
    (hperform : ∀ bytes limit, (⟨bytes, limit, known⟩ : Sink).perform before others =
      (⟨bytes, limit, labelled⟩ : Sink).perform state events) :
    Leaves known before others text labelled' state' where
  unlimited bytes := by rw [hperform, h.unlimited]
  within bytes room hroom := by rw [hperform, h.within bytes room hroom]
  beyond bytes room hroom := by
    rw [hperform]
    exact h.beyond bytes room hroom

end Leaves

/-- An object that has a label keeps it, also if more objects have got labels since. -/
theorem labelOf_of_prefix (bytes : ByteArray) (limit : Option Nat) {labelled all : List Ref}
    {r : Ref} (h : (Sink.labelOf ⟨bytes, limit, labelled⟩ r).1.labelled <+: all) :
    Sink.labelOf ⟨bytes, limit, all⟩ r =
      (⟨bytes, limit, all⟩, (Sink.labelOf ⟨bytes, limit, labelled⟩ r).2) := by
  have hmem : r ∈ (Sink.labelOf ⟨bytes, limit, labelled⟩ r).1.labelled := by
    show r ∈ if labelled.contains r then labelled else labelled ++ [r]
    split
    next hknown => exact List.contains_iff_mem.1 hknown
    next => exact List.mem_append_right _ List.mem_cons_self
  rcases h with ⟨more, rfl⟩
  unfold Sink.labelOf at hmem ⊢
  simp only at hmem ⊢
  rw [if_pos (List.contains_iff_mem.2 (List.mem_append_left more hmem)),
    List.idxOf_append_of_mem hmem]

theorem prefix_labelOf (s : Sink) (r : Ref) : s.labelled <+: (s.labelOf r).1.labelled := by
  show s.labelled <+: if s.labelled.contains r then s.labelled else s.labelled ++ [r]
  split
  · exact List.prefix_refl _
  · exact List.prefix_append _ _

/-- Whatever happens, it leaves a text. It leaves the same text if all labels have been given
    before, and gives none if it labels nothing. -/
theorem exists_leaves (labelled : List Ref) (state : σ) (events : List (Event σ)) :
    ∃ text labelled' state', Leaves labelled state events text labelled' state' ∧
      labelled <+: labelled' ∧
      (∀ all, labelled' <+: all → Leaves all state events text all state') ∧
      ((∀ r, .label r ∉ events) → labelled' = labelled) := by
  induction events generalizing labelled state with
  | nil =>
      exact ⟨"", labelled, state, .nil labelled state, List.prefix_refl _,
        fun all _ => .nil all state, fun _ => rfl⟩
  | cons event events ih =>
      have htail : (∀ r, .label r ∉ event :: events) → ∀ r, .label r ∉ events :=
        fun hnone r hr => hnone r (List.mem_cons_of_mem _ hr)
      -- What a label looks like depends on the labels that were given before, so these are carried
      -- along.
      cases event with
      | text first =>
          rcases ih labelled state with ⟨text, labelled', state', h, hmore, hall, hnone⟩
          exact ⟨first ++ text, labelled', state', h.cons first, hmore,
            fun all hprefix => (hall all hprefix).cons first, fun h => hnone (htail h)⟩
      | label r =>
          let s : Sink := ⟨.empty, none, labelled⟩
          rcases ih (s.labelOf r).1.labelled state with ⟨text, labelled', state', h, hmore, hall, -⟩
          refine ⟨(s.labelOf r).2 ++ text, labelled', state',
            (h.cons (s.labelOf r).2).of_perform fun _ _ => rfl, (prefix_labelOf s r).trans hmore,
            fun all hprefix => ((hall all hprefix).cons (s.labelOf r).2).of_perform
              fun bytes limit => ?_, fun hnone => absurd List.mem_cons_self (hnone r)⟩
          have hlabel := labelOf_of_prefix bytes limit (hmore.trans hprefix)
          rw [Sink.perform_label, hlabel]
          rfl
      | entered r accepted next =>
          rcases ih labelled next with ⟨text, labelled', state', h, hmore, hall, hnone⟩
          exact ⟨text, labelled', state', h.of_perform fun _ _ => rfl, hmore,
            fun all hprefix => (hall all hprefix).of_perform fun _ _ => rfl,
            fun h => hnone (htail h)⟩
      | exited r next =>
          rcases ih labelled next with ⟨text, labelled', state', h, hmore, hall, hnone⟩
          exact ⟨text, labelled', state', h.of_perform fun _ _ => rfl, hmore,
            fun all hprefix => (hall all hprefix).of_perform fun _ _ => rfl,
            fun h => hnone (htail h)⟩

end GraphText.Writer

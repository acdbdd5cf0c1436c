import GraphText.Proofs.Heap.Walk
import GraphText.Writer.Survey
import Mathlib.Data.Finset.Card
import Mathlib.Data.List.Nodup

/-!
# Names that identify

The survey gives names to the objects of a graph. An object keeps its own name,
unless it is met more than once and either has none or has one that another
object has too; then it gets a new one. New names are made one after another,
and each avoids every name that any object has and all new ones before it.

So the name of an object that is met more than once is the name of no other
object. The other objects may share names, since nobody looks them up.

## Main definitions

* `IsRenamed`: the objects that get new names.
* `chosen?`: the names that are chosen among some objects.
* `surveyBelow`, `surveyOf`: the survey of the objects below some roots, or one.

## Theorems

* `le_card_of_taken`: no more numbers make taken names than names are taken.
* `freshName_not_mem`: a new name is not taken.
* `lookup_of_kept`, `lookup_of_renamed`: the names of one object.
* `chosen?_injective`: the name of an object that is met more than once is that of no other.
* `ofRoots_eq_ok_iff`: a graph has a survey if and only if its types are registered.
-/

namespace GraphText.Writer

theorem numbered_injective {base : String} {m n : Nat} (h : numbered base m = numbered base n) :
    m = n := by
  have hdigits : Nat.toDigits 10 m = Nat.toDigits 10 n := by
    have hlist := congrArg String.toList h
    simpa [numbered, String.toList_append, Nat.toString_eq_repr] using hlist
  have hvalue := congrArg (fun digits => Nat.ofDigitChars 10 digits 0) hdigits
  simpa using hvalue

theorem numbered_ne_empty (base : String) (n : Nat) : numbered base n ≠ "" := by
  intro h
  have hlist := congrArg String.toList h
  simp [numbered, String.toList_append] at hlist

/-- No more numbers make taken names than names are taken. -/
theorem le_card_of_taken {base : String} {taken : List String} {start count : Nat}
    (htaken : ∀ m < count, numbered base (start + m) ∈ taken) : count ≤ taken.toFinset.card := by
  have hmaps : Set.MapsTo (fun m => numbered base (start + m)) (Finset.range count)
      (taken.toFinset : Set String) := by
    intro m hm
    rw [Finset.coe_range, Set.mem_Iio] at hm
    exact List.mem_toFinset.2 (htaken m hm)
  have hinj : Set.InjOn (fun m => numbered base (start + m)) (Finset.range count) := by
    intro m _ n _ heq
    exact Nat.add_left_cancel (numbered_injective heq)
  have hcard := Finset.card_le_card_of_injOn _ hmaps hinj
  rwa [Finset.card_range] at hcard

/-- Of one name more than are taken, one is not. -/
theorem exists_candidate (base : String) (taken : List String) :
    ∃ n ≤ taken.length, numbered base (n + 1) ∉ taken := by
  refine Decidable.byContradiction fun hnone => ?_
  have htaken : ∀ m < taken.length + 1, numbered base (1 + m) ∈ taken := by
    intro m hm
    refine Decidable.byContradiction fun hfree => hnone ⟨m, by omega, ?_⟩
    rwa [Nat.add_comm]
  have hcard := le_card_of_taken htaken
  have hlen := List.toFinset_card_le taken
  omega

/-- A new name is a base with a number, and is not taken. -/
theorem freshName_spec (base : String) (taken : List String) :
    freshName base taken ∉ taken ∧ ∃ n, freshName base taken = numbered base n := by
  rcases exists_candidate base taken with ⟨n, hn, hfree⟩
  unfold freshName
  dsimp only
  cases hfind : ((List.range (taken.length + 1)).map fun n => numbered base (n + 1)).find?
      fun name => !taken.contains name with
  | none =>
      rw [List.find?_eq_none] at hfind
      have hmem : numbered base (n + 1) ∈
          (List.range (taken.length + 1)).map fun n => numbered base (n + 1) :=
        List.mem_map.2 ⟨n, List.mem_range.2 (by omega), rfl⟩
      exact absurd (by simpa using hfree) (hfind _ hmem)
  | some name =>
      have hmem := List.mem_of_find?_eq_some hfind
      rcases List.mem_map.1 hmem with ⟨k, -, rfl⟩
      refine ⟨?_, k + 1, rfl⟩
      simpa using List.find?_some hfind

theorem freshName_not_mem (base : String) (taken : List String) : freshName base taken ∉ taken :=
  (freshName_spec base taken).1

theorem freshName_ne_empty (base : String) (taken : List String) : freshName base taken ≠ "" := by
  rcases (freshName_spec base taken).2 with ⟨n, hn⟩
  rw [hn]
  exact numbered_ne_empty base n

/-- The objects that get new names: those that are met more than once and have no name, or one that
    does not have one owner. -/
def IsRenamed (h : Heap) (isShared : Ref → Bool) (owners : String → Nat) (r : Ref) : Prop :=
  isShared r = true ∧ ∀ name, (h.get r).name = some name → owners name ≠ 1

section

variable {h : Heap} {isShared : Ref → Bool} {owners : String → Nat} {taken : List String}
  {rs : List Ref} {r : Ref}

/-- What is done for the first object, and which names are taken for the others. -/
theorem chooseNames_cons (x : Ref) (rs : List Ref) :
    (∃ name, chooseNames h isShared owners taken (x :: rs) =
        (x, name) :: chooseNames h isShared owners taken rs ∧ (h.get x).name = some name ∧
        ¬ IsRenamed h isShared owners x) ∨
      (chooseNames h isShared owners taken (x :: rs) = chooseNames h isShared owners taken rs ∧
        (h.get x).name = none ∧ ¬ IsRenamed h isShared owners x) ∨
      ∃ base, chooseNames h isShared owners taken (x :: rs) =
        (x, freshName base taken) ::
          chooseNames h isShared owners (freshName base taken :: taken) rs ∧
        IsRenamed h isShared owners x := by
  rw [chooseNames]
  -- A name of its own and other owners of it, whether it is shared: the four ways in which the
  -- names are chosen.
  split
  next name hname hshared =>
    split
    next hone =>
      exact .inl ⟨name, rfl, hname, fun hrenamed => hrenamed.2 name hname hone⟩
    next hmany =>
      refine .inr (.inr ⟨name, rfl, hshared, fun other hother => ?_⟩)
      rw [hname, Option.some.injEq] at hother
      exact hother ▸ hmany
  next name hname hshared =>
    exact .inl ⟨name, rfl, hname, fun hrenamed => Bool.false_ne_true (hshared ▸ hrenamed.1)⟩
  next hname hshared =>
    exact .inr (.inr ⟨_, rfl, hshared, fun other hother => nomatch hname ▸ hother⟩)
  next hname hshared =>
    exact .inr (.inl ⟨rfl, hname, fun hrenamed => Bool.false_ne_true (hshared ▸ hrenamed.1)⟩)

/-- The others get the names that they get without the first object, with perhaps more names
    taken. -/
theorem exists_taken (h : Heap) (isShared : Ref → Bool) (owners : String → Nat)
    (taken : List String) (x : Ref) (rs : List Ref) :
    ∃ taken', taken ⊆ taken' ∧ ∀ r, r ≠ x →
      (chooseNames h isShared owners taken (x :: rs)).lookup r =
        (chooseNames h isShared owners taken' rs).lookup r := by
  have hother : ∀ r, r ≠ x → (r == x) = false := fun r hr => by simpa using hr
  rcases chooseNames_cons x rs with ⟨name, heq, -⟩ | ⟨heq, -⟩ | ⟨base, heq, -⟩
  · refine ⟨taken, fun _ hname => hname, fun r hr => ?_⟩
    rw [heq, List.lookup_cons, hother r hr]
  · exact ⟨taken, fun _ hname => hname, fun r _ => by rw [heq]⟩
  · refine ⟨freshName base taken :: taken, List.subset_cons_self _ _, fun r hr => ?_⟩
    rw [heq, List.lookup_cons, hother r hr]

/-- Only these objects get names. -/
theorem lookup_of_not_mem (hr : r ∉ rs) :
    (chooseNames h isShared owners taken rs).lookup r = none := by
  induction rs generalizing taken with
  | nil => rfl
  | cons x rs ih =>
      rw [List.mem_cons, not_or] at hr
      rcases exists_taken h isShared owners taken x rs with ⟨taken', -, hlookup⟩
      rw [hlookup r hr.1]
      exact ih hr.2

/-- An object that gets no new name keeps what it has. -/
theorem lookup_of_kept (hnodup : rs.Nodup) (hr : r ∈ rs)
    (hkept : ¬ IsRenamed h isShared owners r) :
    (chooseNames h isShared owners taken rs).lookup r = (h.get r).name := by
  induction rs generalizing taken with
  | nil => cases hr
  | cons x rs ih =>
      rw [List.nodup_cons] at hnodup
      by_cases hx : r = x
      · subst hx
        rcases chooseNames_cons r rs with ⟨name, heq, hname, -⟩ | ⟨heq, hname, -⟩ | ⟨_, -, hnew⟩
        · rw [heq, List.lookup_cons_self, hname]
        · rw [heq, hname]
          exact lookup_of_not_mem hnodup.1
        · exact absurd hnew hkept
      · rcases exists_taken h isShared owners taken x rs with ⟨taken', -, hlookup⟩
        rw [hlookup r hx]
        exact ih hnodup.2 ((List.mem_cons.1 hr).resolve_left hx)

/-- A new name was not taken before. -/
theorem lookup_of_renamed (hr : r ∈ rs) (hrenamed : IsRenamed h isShared owners r) :
    ∃ name, (chooseNames h isShared owners taken rs).lookup r = some name ∧ name ∉ taken ∧
      name ≠ "" := by
  induction rs generalizing taken with
  | nil => cases hr
  | cons x rs ih =>
      by_cases hx : r = x
      · subst hx
        rcases chooseNames_cons r rs with ⟨_, -, -, hkept⟩ | ⟨-, -, hkept⟩ | ⟨base, heq, -⟩
        · exact absurd hrenamed hkept
        · exact absurd hrenamed hkept
        · rw [heq, List.lookup_cons_self]
          exact ⟨_, rfl, freshName_not_mem base taken, freshName_ne_empty base taken⟩
      · rcases exists_taken h isShared owners taken x rs with ⟨taken', htaken, hlookup⟩
        have hrest : ∃ name, (chooseNames h isShared owners taken' rs).lookup r = some name ∧
            name ∉ taken' ∧ name ≠ "" := ih ((List.mem_cons.1 hr).resolve_left hx)
        rcases hrest with ⟨name, hname, hfree, hempty⟩
        exact ⟨name, (hlookup r hx).trans hname, fun hmem => hfree (htaken hmem), hempty⟩

/-- The first object gets a new name that none of the others gets. -/
theorem eq_of_lookup_first {x y : Ref} {name : String}
    (hx : IsRenamed h isShared owners x) (hy : IsRenamed h isShared owners y)
    (hmem : y ∈ x :: rs)
    (hnamex : (chooseNames h isShared owners taken (x :: rs)).lookup x = some name)
    (hnamey : (chooseNames h isShared owners taken (x :: rs)).lookup y = some name) : y = x := by
  refine Decidable.byContradiction fun hne => ?_
  have hfalse : (y == x) = false := by simpa using hne
  rcases chooseNames_cons x rs with ⟨_, -, -, hkept⟩ | ⟨-, -, hkept⟩ | ⟨base, heq, -⟩
  · exact hkept hx
  · exact hkept hx
  · rw [heq, List.lookup_cons_self, Option.some.injEq] at hnamex
    rw [heq, List.lookup_cons, hfalse] at hnamey
    -- The name of the first object is taken for all others.
    have hother : ∃ other, (chooseNames h isShared owners (freshName base taken :: taken) rs).lookup
        y = some other ∧ other ∉ freshName base taken :: taken ∧ other ≠ "" :=
      lookup_of_renamed ((List.mem_cons.1 hmem).resolve_left hne) hy
    rcases hother with ⟨other, hother, hfree, -⟩
    have hsame : name = other := by simpa [hnamey] using hother
    exact hfree (hsame ▸ hnamex ▸ List.mem_cons_self)

/-- Different objects get different new names. -/
theorem eq_of_lookup_renamed {x : Ref} {name : String} (hr : r ∈ rs) (hx : x ∈ rs)
    (hrenamed : IsRenamed h isShared owners r) (hrenamed' : IsRenamed h isShared owners x)
    (hname : (chooseNames h isShared owners taken rs).lookup r = some name)
    (hname' : (chooseNames h isShared owners taken rs).lookup x = some name) : x = r := by
  induction rs generalizing taken with
  | nil => cases hr
  | cons y rs ih =>
      -- The first of the two that comes takes its name, so the other one cannot get it.
      by_cases hry : r = y
      · subst hry
        exact eq_of_lookup_first hrenamed hrenamed' hx hname hname'
      · by_cases hxy : x = y
        · subst hxy
          exact (eq_of_lookup_first hrenamed' hrenamed hr hname' hname).symm
        · have hr := (List.mem_cons.1 hr).resolve_left hry
          have hx := (List.mem_cons.1 hx).resolve_left hxy
          rcases exists_taken h isShared owners taken y rs with ⟨taken', -, hlookup⟩
          rw [hlookup r hry] at hname
          rw [hlookup x hxy] at hname'
          exact ih hr hx hname hname'

end

/-- One of different things is the only one of its kind. -/
theorem countP_eq_one_iff {α : Type} [DecidableEq α] {p : α → Bool} {l : List α} {a : α}
    (hnodup : l.Nodup) (ha : a ∈ l) (hp : p a = true) :
    l.countP p = 1 ↔ ∀ b ∈ l, p b = true → b = a := by
  constructor
  · intro hone b hb hpb
    rw [List.countP_eq_length_filter, List.length_eq_one_iff] at hone
    rcases hone with ⟨c, hc⟩
    have hsingle : ∀ x ∈ l, p x = true → x = c := by
      intro x hx hpx
      have hmem := List.mem_filter.2 ⟨hx, hpx⟩
      rw [hc] at hmem
      exact List.mem_singleton.1 hmem
    rw [hsingle b hb hpb, hsingle a ha hp]
  · intro honly
    -- Counting what has the property is counting the one that has it.
    have hcongr : l.countP p = l.count a := by
      refine List.countP_congr fun b hb => ?_
      rw [beq_iff_eq]
      exact ⟨honly b hb, fun heq => heq ▸ hp⟩
    rw [hcongr]
    exact List.count_eq_one_of_mem hnodup ha

section

variable {h : Heap} {isShared : Ref → Bool} {rs : List Ref} {r x : Ref} {name : String}

/-- The names that some objects have. -/
def namesAmong (h : Heap) (rs : List Ref) : List String :=
  rs.filterMap fun r => (h.get r).name

/-- The name that is chosen for one of some objects, if no name that one of them has may be made
    anew. -/
def chosen? (h : Heap) (isShared : Ref → Bool) (rs : List Ref) (r : Ref) : Option String :=
  (chooseNames h isShared (namesAmong h rs).count (namesAmong h rs).eraseDups rs).lookup r

/-- Whether one of some objects has a name that none of the others has. -/
def IsSoleAmong (h : Heap) (rs : List Ref) (r : Ref) : Prop :=
  ∃ name, (h.get r).name = some name ∧ ∀ x ∈ rs, (h.get x).name = some name → x = r

/-- A name has one owner if no other object has it. -/
theorem count_namesAmong_eq_one_iff (hnodup : rs.Nodup) (hr : r ∈ rs)
    (hname : (h.get r).name = some name) :
    (namesAmong h rs).count name = 1 ↔ ∀ x ∈ rs, (h.get x).name = some name → x = r := by
  unfold namesAmong
  rw [List.count_filterMap, countP_eq_one_iff hnodup hr (by simp [hname])]
  simp only [beq_iff_eq]

/-- New names are for the objects that are met more than once and are not the only ones of their
    name. -/
theorem isRenamed_among_iff (hnodup : rs.Nodup) (hr : r ∈ rs) :
    IsRenamed h isShared (namesAmong h rs).count r ↔
      isShared r = true ∧ ¬ IsSoleAmong h rs r := by
  unfold IsRenamed IsSoleAmong
  refine and_congr_right fun _ => ⟨?_, ?_⟩
  · rintro hmany ⟨name, hname, honly⟩
    exact hmany name hname ((count_namesAmong_eq_one_iff hnodup hr hname).2 honly)
  · intro hnot name hname hone
    exact hnot ⟨name, hname, (count_namesAmong_eq_one_iff hnodup hr hname).1 hone⟩

/-- An object that is met once, or is the only one of its name, keeps what it has. -/
theorem chosen?_of_kept (hnodup : rs.Nodup) (hr : r ∈ rs)
    (hkept : ¬ (isShared r = true ∧ ¬ IsSoleAmong h rs r)) :
    chosen? h isShared rs r = (h.get r).name :=
  lookup_of_kept hnodup hr (mt (isRenamed_among_iff hnodup hr).1 hkept)

/-- Any other object gets a name that no object has. -/
theorem chosen?_of_renamed (hnodup : rs.Nodup) (hr : r ∈ rs)
    (hrenamed : isShared r = true ∧ ¬ IsSoleAmong h rs r) :
    ∃ name, chosen? h isShared rs r = some name ∧ name ∉ (namesAmong h rs).eraseDups ∧
      name ≠ "" :=
  lookup_of_renamed hr ((isRenamed_among_iff hnodup hr).2 hrenamed)

/-- An object that is met more than once has a name. -/
theorem isSome_chosen?_of_shared (hnodup : rs.Nodup) (hr : r ∈ rs) (hshared : isShared r = true) :
    (chosen? h isShared rs r).isSome = true := by
  by_cases hsole : IsSoleAmong h rs r
  · rcases hsole with ⟨name, hname, honly⟩
    rw [chosen?_of_kept hnodup hr fun hnew => hnew.2 ⟨name, hname, honly⟩, hname]
    rfl
  · rcases chosen?_of_renamed hnodup hr ⟨hshared, hsole⟩ with ⟨name, hname, -⟩
    rw [hname]
    rfl

/-- Only these objects get names. -/
theorem mem_of_chosen? (hname : chosen? h isShared rs r = some name) : r ∈ rs := by
  refine Decidable.byContradiction fun hr => ?_
  have hnone : chosen? h isShared rs r = none := lookup_of_not_mem hr
  rw [hnone] at hname
  cases hname

/-- The name of an object that is met more than once is the name of no other object. -/
theorem chosen?_injective (hnodup : rs.Nodup) (hr : r ∈ rs) (hshared : isShared r = true)
    (hnamer : chosen? h isShared rs r = some name)
    (hnamex : chosen? h isShared rs x = some name) : x = r := by
  have hx := mem_of_chosen? hnamex
  have hown : ∀ y ∈ rs, (h.get y).name = some name → name ∈ (namesAmong h rs).eraseDups := by
    intro y hy hname
    rw [List.mem_eraseDups]
    exact List.mem_filterMap.2 ⟨y, hy, hname⟩
  -- New names differ from each other and from all names that objects have, and a name that is kept
  -- by what is shared has one owner.
  by_cases hnewr : isShared r = true ∧ ¬ IsSoleAmong h rs r
  · by_cases hnewx : isShared x = true ∧ ¬ IsSoleAmong h rs x
    · exact eq_of_lookup_renamed hr hx ((isRenamed_among_iff hnodup hr).2 hnewr)
        ((isRenamed_among_iff hnodup hx).2 hnewx) hnamer hnamex
    · rcases chosen?_of_renamed hnodup hr hnewr with ⟨other, hother, hfree, -⟩
      rw [hnamer, Option.some.injEq] at hother
      rw [chosen?_of_kept hnodup hx hnewx] at hnamex
      exact absurd (hown x hx hnamex) (hother ▸ hfree)
  · by_cases hnewx : isShared x = true ∧ ¬ IsSoleAmong h rs x
    · rcases chosen?_of_renamed hnodup hx hnewx with ⟨other, hother, hfree, -⟩
      rw [hnamex, Option.some.injEq] at hother
      rw [chosen?_of_kept hnodup hr hnewr] at hnamer
      exact absurd (hown r hr hnamer) (hother ▸ hfree)
    · rcases Classical.not_not.1 fun hsole => hnewr ⟨hshared, hsole⟩ with ⟨own, hown, honly⟩
      rw [chosen?_of_kept hnodup hr hnewr, hown, Option.some.injEq] at hnamer
      rw [chosen?_of_kept hnodup hx hnewx] at hnamex
      exact honly x hx (hnamer ▸ hnamex)

end

/-- The survey of the objects below some roots, if their types are registered. -/
def surveyBelow (reg : Registry) (h : Heap) (roots : List Ref) : Survey :=
  let arrivals := h.arrivals reg.visibleOf roots
  { order := arrivals.eraseDups
    names := chooseNames h (fun r => 1 < arrivals.count r)
      (namesAmong h arrivals.eraseDups).count (namesAmong h arrivals.eraseDups).eraseDups
      arrivals.eraseDups }

/-- Objects are looked up one after another, and all are found if they are of registered types. -/
theorem forM_lookup_eq_ok_iff {reg : Registry} {h : Heap} {rs : List Ref} :
    (rs.forM fun r => do
      let _ ← reg.lookup (h.get r).typeName) = .ok () ↔
      ∀ r ∈ rs, reg.contains (h.get r).typeName = true := by
  induction rs with
  | nil => exact iff_of_true rfl (List.forall_mem_nil _)
  | cons r rs ih =>
      rw [List.forM, List.forall_mem_cons, ← ih, Registry.contains, Registry.lookup]
      cases reg.find? (h.get r).typeName with
      | none => exact iff_of_false nofun fun hall => Bool.false_ne_true hall.1
      | some spec => exact (and_iff_right rfl).symm

theorem ofRoots_eq_ok_of_registered {reg : Registry} {h : Heap} {roots : List Ref}
    (hregistered : ∀ root ∈ roots, ∀ r, h.Reaches reg.visibleOf root r →
      reg.contains (h.get r).typeName = true) :
    Survey.ofRoots reg h roots = .ok (surveyBelow reg h roots) := by
  have hchecked := forM_lookup_eq_ok_iff.2 fun r (hr : r ∈ h.preorder reg.visibleOf roots) => by
    rcases Heap.mem_preorder_iff.1 hr with ⟨root, hroot, hreach⟩
    exact hregistered root hroot r hreach
  exact congrArg
    (fun checked : Except Cause Unit => checked >>= fun _ => .ok (surveyBelow reg h roots)) hchecked

/-- A graph has a survey if and only if all its types are registered. -/
theorem ofRoots_eq_ok_iff {reg : Registry} {h : Heap} {roots : List Ref} :
    (∃ s, Survey.ofRoots reg h roots = .ok s) ↔
      ∀ root ∈ roots, ∀ r, h.Reaches reg.visibleOf root r →
        reg.contains (h.get r).typeName = true := by
  refine ⟨?_, fun hregistered => ⟨_, ofRoots_eq_ok_of_registered hregistered⟩⟩
  rintro ⟨s, hs⟩ root hroot r hr
  rcases bind_eq_ok hs with ⟨_, hchecked, -⟩
  exact forM_lookup_eq_ok_iff.1 hchecked r (Heap.mem_preorder_iff.2 ⟨root, hroot, hr⟩)

section

variable {reg : Registry} {h : Heap} {root r x : Ref}

/-- The survey of a graph whose types are registered. -/
def surveyOf (reg : Registry) (h : Heap) (root : Ref) : Survey :=
  let arrivals := h.arrivals reg.visibleOf [root]
  let named := arrivals.eraseDups.filterMap fun r => (h.get r).name
  { order := arrivals.eraseDups
    names := chooseNames h (fun r => 1 < arrivals.count r) named.count named.eraseDups
      arrivals.eraseDups }

theorem mem_order_iff :
    r ∈ (surveyOf reg h root).order ↔ h.Reaches reg.visibleOf root r := by
  have hmem : r ∈ (surveyOf reg h root).order ↔ ∃ x ∈ [root], h.Reaches reg.visibleOf x r :=
    Heap.mem_preorder_iff
  simpa using hmem

theorem nodup_order : (surveyOf reg h root).order.Nodup :=
  nodup_eraseDups _

theorem ofRoots_eq_ok
    (hregistered : ∀ r, h.Reaches reg.visibleOf root r →
      reg.contains (h.get r).typeName = true) :
    Survey.ofRoots reg h [root] = .ok (surveyOf reg h root) :=
  ofRoots_eq_ok_of_registered fun _ hx r hr => hregistered r (List.mem_singleton.1 hx ▸ hr)

/-- Whether an object is met more than once on the walk through a graph. -/
def IsShared (reg : Registry) (h : Heap) (root r : Ref) : Prop :=
  1 < (h.arrivals reg.visibleOf [root]).count r

/-- Whether an object has a name that no other object of the graph has. -/
def IsSole (reg : Registry) (h : Heap) (root r : Ref) : Prop :=
  ∃ name, (h.get r).name = some name ∧
    ∀ x, h.Reaches reg.visibleOf root x → (h.get x).name = some name → x = r

/-- The names that the objects of a graph have. -/
def ownNames (reg : Registry) (h : Heap) (root : Ref) : List String :=
  (surveyOf reg h root).order.filterMap fun r => (h.get r).name

/-- Among the objects of a graph, those are renamed that are met more than once and are not the only
    ones of their name. -/
theorem renamed_among_iff :
    decide (1 < (h.arrivals reg.visibleOf [root]).count r) = true ∧
        ¬ IsSoleAmong h (surveyOf reg h root).order r ↔
      IsShared reg h root r ∧ ¬ IsSole reg h root r := by
  unfold IsShared IsSole IsSoleAmong
  simp only [decide_eq_true_eq, mem_order_iff]

/-- An object that is met once, or is the only one of its name, keeps what it has. -/
theorem name?_of_kept (hr : h.Reaches reg.visibleOf root r)
    (hkept : ¬ (IsShared reg h root r ∧ ¬ IsSole reg h root r)) :
    (surveyOf reg h root).name? r = (h.get r).name :=
  chosen?_of_kept nodup_order (mem_order_iff.2 hr) (mt renamed_among_iff.1 hkept)

/-- An object that is met more than once has a name. -/
theorem named_of_shared (hr : h.Reaches reg.visibleOf root r) (hshared : IsShared reg h root r) :
    ((surveyOf reg h root).name? r).isSome = true :=
  isSome_chosen?_of_shared nodup_order (mem_order_iff.2 hr) (decide_eq_true hshared)

/-- No object is written by the empty name, if none has it. -/
theorem name?_ne_empty (hr : h.Reaches reg.visibleOf root r) (hempty : (h.get r).name ≠ some "") :
    (surveyOf reg h root).name? r ≠ some "" := by
  by_cases hrenamed : IsShared reg h root r ∧ ¬ IsSole reg h root r
  · have hnew : ∃ name, (surveyOf reg h root).name? r = some name ∧
        name ∉ (namesAmong h (surveyOf reg h root).order).eraseDups ∧ name ≠ "" :=
      chosen?_of_renamed nodup_order (mem_order_iff.2 hr) (renamed_among_iff.2 hrenamed)
    rcases hnew with ⟨name, hname, -, hne⟩
    intro heq
    exact hne (Option.some.inj (hname.symm.trans heq))
  · rw [name?_of_kept hr hrenamed]
    exact hempty

/-- The name of an object that is met more than once is the name of no other object. -/
theorem name?_injective {name : String} (hr : h.Reaches reg.visibleOf root r)
    (hshared : IsShared reg h root r) (hnamer : (surveyOf reg h root).name? r = some name)
    (hnamex : (surveyOf reg h root).name? x = some name) : x = r := by
  have hmany : decide (1 < (h.arrivals reg.visibleOf [root]).count r) = true :=
    decide_eq_true hshared
  exact chosen?_injective nodup_order (mem_order_iff.2 hr) hmany hnamer hnamex

end

end GraphText.Writer

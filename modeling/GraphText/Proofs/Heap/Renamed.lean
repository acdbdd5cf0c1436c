import GraphText.Proofs.Heap.Graph
import Mathlib.Data.List.Basic
import Mathlib.Data.Set.Function

/-!
# Renamed references

Objects are known to each other by number, and nothing that is done to them
looks at the numbers themselves. So everything can be done under other numbers
with the same result: here for what an object keeps, fetches and stores, and for
the walk over a graph. The walk compares numbers, so there the renaming has to
keep the numbers apart of the objects that are met.

## Main definitions

* `Table.map`: a table with every entry changed.
* `Content.mapRefs`, `Instance.mapRefs`: an object with every reference replaced.

## Theorems

* `Instance.fetch?_mapRefs`, `Instance.store_mapRefs`: reading and setting a
  field under other numbers.
* `Heap.children_map`, `Heap.arrivals_map`: walking under other numbers.
-/

namespace GraphText

namespace Table

variable {α β : Type}

/-- The table with every entry changed. -/
def map (f : α → β) (t : Table α) : Table β :=
  ⟨t.entries.map fun entry => (entry.1, f entry.2)⟩

theorem find?_map (f : α → β) (t : Table α) (name : String) :
    (t.map f).find? name = (t.find? name).map f := by
  unfold find? map
  induction t.entries with
  | nil => rfl
  | cons entry rest ih =>
      rw [List.map_cons, List.lookup_cons, List.lookup_cons, ih]
      cases name == entry.1 <;> rfl

theorem insert_map (f : α → β) (t : Table α) (name : String) (value : α) :
    (t.insert name value).map f = (t.map f).insert name (f value) := by
  unfold insert map
  congr 1
  induction t.entries with
  | nil => rfl
  | cons entry rest ih =>
      simp only [insertEntry, List.map_cons]
      split
      · rfl
      · rw [List.map_cons, ih]

end Table

theorem Value.type_mapRefs (f : Ref → Ref) (v : Value) : (v.mapRefs f).type = v.type := by
  cases v <;> rfl

theorem Value.mapRefs_mapRefs (f g : Ref → Ref) (v : Value) :
    (v.mapRefs f).mapRefs g = v.mapRefs (g ∘ f) := by
  cases v <;> simp [mapRefs]

theorem Value.mapRefs_of_refs {f : Ref → Ref} {v : Value} (h : v.refs = []) :
    v.mapRefs f = v := by
  cases v with
  | object r => simp [refs] at h
  | objects rs =>
      rw [refs] at h
      rw [h]
      rfl
  | bool b | int n | uint n | float x | string s => rfl

theorem Value.mapRefs_id (v : Value) : v.mapRefs id = v := by
  cases v <;> simp [mapRefs]

/-- A content with every reference replaced. -/
def Content.mapRefs (f : Ref → Ref) : Content → Content
  | .values vs => .values (vs.map (Value.mapRefs f))
  | .bits b => .bits b

theorem Content.mapRefs_id (content : Content) : content.mapRefs id = content := by
  cases content with
  | bits b => rfl
  | values vs => rw [mapRefs, funext Value.mapRefs_id, List.map_id']

theorem Content.refs_mapRefs (f : Ref → Ref) (content : Content) :
    (content.mapRefs f).refs = content.refs.map f := by
  cases content with
  | bits b => rfl
  | values vs => simp only [mapRefs, refs, List.flatMap_map, List.map_flatMap, Value.refs_mapRefs]

namespace FieldKind

variable {f : Ref → Ref}

theorem checkTypes_mapRefs (field : String) (wanted : ScalarType) (vs : List Value) :
    checkTypes field wanted (vs.map (Value.mapRefs f)) = checkTypes field wanted vs := by
  induction vs with
  | nil => rfl
  | cons v vs ih => rw [List.map_cons, checkTypes, checkTypes, Value.type_mapRefs, ih]

theorem oneString_mapRefs (field : String) (vs : List Value) :
    oneString field (vs.map (Value.mapRefs f)) = oneString field vs := by
  unfold oneString
  rw [checkTypes_mapRefs, List.length_map]
  cases vs with
  | nil => rfl
  | cons v vs => cases v <;> cases vs <;> rfl

theorem fetch?_mapRefs (kind : FieldKind) (content : Content) :
    kind.fetch? (content.mapRefs f) = (kind.fetch? content).map (List.map (Value.mapRefs f)) := by
  cases content <;> cases kind <;> rfl

theorem store?_mapRefs (kind : FieldKind) (field : String) (vs : List Value) :
    kind.store? field (vs.map (Value.mapRefs f)) =
      (kind.store? field vs).map (Content.mapRefs f) := by
  cases kind with
  | scalar type | array type count =>
      rw [store?, store?, checkTypes_mapRefs, List.length_map]
      cases checkTypes field type vs with
      | error e => rfl
      | ok _ =>
          simp only [bind, Except.bind]
          split <;> rfl
  | list type =>
      rw [store?, store?, checkTypes_mapRefs]
      cases checkTypes field type vs <;> rfl
  | choice names =>
      rw [store?, store?, oneString_mapRefs]
      cases oneString field vs >>= Literal.choice names <;> rfl
  | flags table =>
      rw [store?, store?, oneString_mapRefs]
      cases oneString field vs >>= table.decode <;> rfl
  | object required =>
      cases vs with
      | nil => rfl
      | cons v vs => cases v <;> cases vs <;> rfl
  | objects required =>
      cases vs with
      | nil => rfl
      | cons v vs => cases v <;> cases vs <;> rfl
  | raw type arity => rfl

end FieldKind

namespace Instance

variable {f : Ref → Ref}

/-- The object with every reference replaced. -/
def mapRefs (f : Ref → Ref) (i : Instance) : Instance :=
  { i with slots := i.slots.map (Content.mapRefs f) }

theorem fetch?_mapRefs (i : Instance) (field : FieldSpec) :
    (i.mapRefs f).fetch? field = (i.fetch? field).map (List.map (Value.mapRefs f)) := by
  unfold fetch? mapRefs
  rw [Table.find?_map]
  cases i.slots.find? field.name with
  | none => rfl
  | some content => exact FieldKind.fetch?_mapRefs field.kind content

theorem store_mapRefs (i : Instance) (field : FieldSpec) (vs : List Value) :
    (i.mapRefs f).store field (vs.map (Value.mapRefs f)) =
      (i.store field vs).map (mapRefs f) := by
  unfold store
  rw [FieldKind.store?_mapRefs]
  cases field.kind.store? field.name vs with
  | error e => rfl
  | ok content => simp [Except.map, mapRefs, Table.insert_map]

/-- What an object refers to under other numbers. -/
theorem holds_mapRefs {i : Instance} {x : Ref} (h : (i.mapRefs f).Holds x) :
    ∃ y, i.Holds y ∧ x = f y := by
  rcases h with ⟨name, content, hfind, hx⟩
  rw [mapRefs, Table.find?_map, Option.map_eq_some_iff] at hfind
  rcases hfind with ⟨kept, hfind, rfl⟩
  rw [Content.refs_mapRefs, List.mem_map] at hx
  rcases hx with ⟨y, hy, rfl⟩
  exact ⟨y, ⟨name, kept, hfind, hy⟩, rfl⟩

end Instance

namespace Heap

/-- What an object refers to under other numbers. -/
theorem children_map {f : Ref → Ref} {h h' : Heap} {fields : Instance → List FieldSpec} {r r' : Ref}
    (hfields : fields (h'.get r') = fields (h.get r))
    (hfetch : ∀ field ∈ fields (h.get r),
      (h'.get r').fetch? field = ((h.get r).fetch? field).map (List.map (Value.mapRefs f))) :
    h'.children fields r' = (h.children fields r).map f := by
  unfold children
  rw [hfields, List.map_flatMap]
  refine List.flatMap_congr fun field hfield => ?_
  rw [hfetch field hfield]
  cases (h.get r).fetch? field with
  | none => rfl
  | some vs =>
      simp only [Option.map_some, Option.getD_some, List.map_flatMap, List.flatMap_map,
        Value.refs_mapRefs]

/-- An object that refers to nothing is walked past, whether it has been met or not. -/
theorem exists_arrivalsFrom_leaf {size : Nat} {next : Ref → List Ref} {r : Ref}
    (hleaf : next r = []) (met pending : List Ref) : ∃ met', (∀ x, x ≠ r → (x ∈ met' ↔ x ∈ met)) ∧
      arrivalsFrom size next met (r :: pending) = r :: arrivalsFrom size next met' pending := by
  rw [arrivalsFrom, hleaf]
  split
  · exact ⟨r :: met, fun x hx => by simp [hx], rfl⟩
  · exact ⟨met, fun x _ => .rfl, rfl⟩

/-- A walk under other numbers arrives at the same objects, under their other numbers. What has been
    met matters only for objects that refer to something, and only those need to be in the heaps. -/
theorem arrivalsFrom_map {f : Ref → Ref} {size size' : Nat} {next next' : Ref → List Ref}
    {among : Ref → Prop} (hf : Set.InjOn f {r | among r})
    (hnext : ∀ r, among r → next' (f r) = (next r).map f)
    (hclosed : ∀ r, among r → ∀ x ∈ next r, among x)
    (hsize : ∀ r, among r → next r ≠ [] → r < size ∧ f r < size') {met met' pending : List Ref}
    (hpending : ∀ r ∈ pending, among r)
    (hmet : ∀ r, among r → next r ≠ [] → (f r ∈ met' ↔ r ∈ met)) :
    arrivalsFrom size' next' met' (pending.map f) =
      (arrivalsFrom size next met pending).map f := by
  -- An object that refers to nothing may be new for one walk and not for the other.
  have hpass : ∀ r, among r → next r = [] → ∀ met met' pending : List Ref,
      (∀ x, among x → next x ≠ [] → (f x ∈ met' ↔ x ∈ met)) → ∃ met'',
        (∀ x, among x → next x ≠ [] → (f x ∈ met'' ↔ x ∈ met)) ∧
          arrivalsFrom size' next' met' (f r :: pending.map f) =
            f r :: arrivalsFrom size' next' met'' (pending.map f) := by
    intro r hr hleaf met met' pending hmet
    have hleaf' : next' (f r) = [] := by rw [hnext r hr, hleaf, List.map_nil]
    rcases exists_arrivalsFrom_leaf hleaf' met' (pending.map f) with ⟨met'', hsame, heq⟩
    refine ⟨met'', fun x hx hparent => ?_, heq⟩
    have hne : f x ≠ f r := fun hfx => hparent (hf hx hr hfx ▸ hleaf)
    rw [hsame _ hne, hmet x hx hparent]
  fun_induction arrivalsFrom size next met pending generalizing met' with
  | case1 => rw [List.map_nil, arrivalsFrom]
  | case2 met r pending hnew ih =>
      have hr := hpending r List.mem_cons_self
      have hrest : ∀ x ∈ next r ++ pending, among x := by
        intro x hx
        rcases List.mem_append.1 hx with hx | hx
        · exact hclosed r hr x hx
        · exact hpending x (List.mem_cons_of_mem _ hx)
      rw [List.map_cons, List.map_cons]
      by_cases hleaf : next r = []
      · rcases hpass r hr hleaf met met' pending hmet with ⟨met'', hmet'', heq⟩
        have hagree : ∀ x, among x → next x ≠ [] → (f x ∈ met'' ↔ x ∈ r :: met) := by
          intro x hx hparent
          have hne : x ≠ r := fun hxr => hparent (hxr ▸ hleaf)
          rw [hmet'' x hx hparent, List.mem_cons, or_iff_right hne]
        rw [heq, ← ih hrest hagree, hleaf, List.nil_append]
      · have hnew' : f r < size' ∧ met'.contains (f r) = false := by
          refine ⟨(hsize r hr hleaf).2, ?_⟩
          simpa [hmet r hr hleaf] using hnew.2
        rw [arrivalsFrom, dif_pos hnew', hnext r hr, ← List.map_append]
        refine congrArg (f r :: ·) (ih hrest fun x hx hparent => ?_)
        rw [List.mem_cons, List.mem_cons, hmet x hx hparent]
        exact or_congr_left ⟨fun hfx => hf hx hr hfx, congrArg f⟩
  | case3 met r pending hold ih =>
      have hr := hpending r List.mem_cons_self
      have hrest : ∀ x ∈ pending, among x := fun x hx => hpending x (List.mem_cons_of_mem _ hx)
      rw [List.map_cons, List.map_cons]
      by_cases hleaf : next r = []
      · rcases hpass r hr hleaf met met' pending hmet with ⟨met'', hmet'', heq⟩
        rw [heq, ih hrest hmet'']
      · have hold' : ¬ (f r < size' ∧ met'.contains (f r) = false) := by
          intro hnew'
          refine hold ⟨(hsize r hr hleaf).1, ?_⟩
          simpa [hmet r hr hleaf] using hnew'.2
        rw [arrivalsFrom, dif_neg hold', ih hrest hmet]

/-- Only an object in the heap refers to anything. -/
theorem lt_size_of_children {h : Heap} {fields : Instance → List FieldSpec} {r : Ref}
    (hr : h.children fields r ≠ []) : r < h.size := by
  rcases List.exists_mem_of_ne_nil _ hr with ⟨x, hx⟩
  exact lt_size_of_points (points_of_linked hx)

/-- A walk through objects that refer to each other as those of another walk do. -/
theorem arrivals_map {f : Ref → Ref} {h h' : Heap} {fields : Instance → List FieldSpec}
    {among : Ref → Prop} (hf : Set.InjOn f {r | among r})
    (hchildren : ∀ r, among r → h'.children fields (f r) = (h.children fields r).map f)
    (hclosed : ∀ r, among r → ∀ x ∈ h.children fields r, among x) {roots : List Ref}
    (hroots : ∀ r ∈ roots, among r) :
    h'.arrivals fields (roots.map f) = (h.arrivals fields roots).map f := by
  refine arrivalsFrom_map hf hchildren hclosed (fun r hr hparent => ?_) hroots (by simp)
  have hparent' : h'.children fields (f r) ≠ [] := by
    rw [hchildren r hr]
    simpa using hparent
  exact ⟨lt_size_of_children hparent, lt_size_of_children hparent'⟩

theorem eraseDups_map {f : Ref → Ref} {l : List Ref} (hf : Set.InjOn f {r | r ∈ l}) :
    (l.map f).eraseDups = l.eraseDups.map f := by
  induction hn : l.length using Nat.strongRecOn generalizing l with
  | ind n ih =>
    cases l with
    | nil => rfl
    | cons a as =>
        have hlen : (as.filter fun b => !b == a).length < n := by
          have := List.length_filter_le (fun b => !b == a) as
          rw [List.length_cons] at hn
          omega
        -- What is equal to the first goes, before or after the renaming, as no two others are
        -- renamed alike.
        have hfilter : (as.map f).filter (fun b => !b == f a) =
            (as.filter fun b => !b == a).map f := by
          rw [List.filter_map]
          congr 1
          refine List.filter_congr fun b hb => ?_
          have hiff : (f b == f a) = (b == a) := by
            rw [Bool.eq_iff_iff, beq_iff_eq, beq_iff_eq]
            exact ⟨fun heq => hf (List.mem_cons_of_mem _ hb) List.mem_cons_self heq, congrArg f⟩
          simp only [Function.comp_apply, hiff]
        have hsub : Set.InjOn f {r | r ∈ as.filter fun b => !b == a} :=
          hf.mono fun r hr => List.mem_cons_of_mem _ (List.mem_filter.1 hr).1
        rw [List.map_cons, List.eraseDups_cons, List.eraseDups_cons, hfilter, ih _ hlen hsub rfl,
          List.map_cons]

theorem idxOf_map {f : Ref → Ref} (hf : ∀ a b, f a = f b → a = b) (l : List Ref) (r : Ref) :
    (l.map f).idxOf (f r) = l.idxOf r := by
  induction l with
  | nil => rfl
  | cons a as ih =>
      have hiff : (f a == f r) = (a == r) := by
        rw [Bool.eq_iff_iff, beq_iff_eq, beq_iff_eq]
        exact ⟨hf a r, congrArg f⟩
      rw [List.map_cons, List.idxOf_cons, List.idxOf_cons, ih, hiff]

end Heap

end GraphText

import GraphText.Proofs.Reader.Plan

/-!
# Reading outlines

A text of an outline is read, and the graph comes up again as planned. The proof
follows the outline: it is an induction over objects, the lines of bodies and
the lines of lists at the same time, and in each case the pieces of the text are
read one after another.

An object goes to its target behind its last token, and what happens there is
not a matter of the object. So the statement about objects asks only that the
delivery succeeds and goes on well, whatever came up on the way. Behind a line
there is a newline, which is a blank in front of what follows, and for the last
line of a body what follows is not a line; hence the statements about lines end
in front of some blanks.

## Main definitions

* `Plan.IsWritable`: every object of the graph can be given again.
* `Plan.Line`: a line of a body of a type.

## Theorems

* `Plan.comesTo_outline`, `Plan.comesTo_lines`, `Plan.comesTo_elements`: reading
  an object, the lines of a body and the lines of a list.
-/

namespace GraphText

open Writer

namespace Reader

namespace Plan

/-- Every object of the graph can be given again. -/
def IsWritable (plan : Plan) (reg : Registry) (root : Ref) : Prop :=
  ∀ r, plan.heap.Reaches reg.visibleOf root r → ∃ spec, Writable reg plan.heap r spec

/-- A line that a body of this type may have. -/
structure Line (plan : Plan) (reg : Registry) (root : Ref) (spec : ObjectSpec)
    (line : FieldSpec × List Value) : Prop where
  found : spec.find? line.1.name = some line.1
  given : Given reg plan.heap line.1 line.2
  reach : ∀ x ∈ line.2.flatMap Value.refs, plan.heap.Reaches reg.visibleOf root x

section

variable {env : Environment} {plan : Plan} {root : Ref}

/-- The body of an object stands between blanks in its braces. -/
theorem text_full (depth : Nat) (r : Ref) (type : String) (name : Option String) (ls : Lines) :
    ∃ front back, IsBlank front ∧ IsBlank back ∧ ∀ rest,
      ((Outline.full r type name ls).text depth).toList ++ rest =
        (header type name).toList ++ ' ' :: '\x7b' :: (front ++ ((ls.text (depth + 1)).toList ++
          (back ++ '\x7d' :: rest))) := by
  -- Without lines both braces stand on the line of the header.
  by_cases hnil : ls = .nil
  · refine ⟨[], [], isBlank_nil, isBlank_nil, fun rest => ?_⟩
    rw [hnil]
    simp [Outline.text, Lines.text, String.toList_append]
  · refine ⟨['\n'], (indentation depth).toList, isBlank_cons rfl isBlank_nil,
      isBlank_indentation depth, fun rest => ?_⟩
    have htext : (Outline.full r type name ls).text depth =
        header type name ++ " \x7b" ++ "\n" ++ ls.text (depth + 1) ++
          (indentation depth ++ "\x7d") := by
      cases ls with
      | nil => exact absurd rfl hnil
      | scalars | object | objects => rfl
    rw [htext]
    simp [String.toList_append]

/-- The elements of a list stand between blanks in its brackets. -/
theorem text_objects (depth : Nat) (field : FieldSpec) (os : Elements) (ls : Lines) :
    ∃ front back, IsBlank front ∧ IsBlank back ∧ ∀ rest,
      ((Lines.objects field os ls).text depth).toList ++ rest =
        (indentation depth).toList ++ (field.name.toList ++ ':' :: (' ' :: '[' ::
          (front ++ ((os.text (depth + 1)).toList ++ (back ++ ']' :: ',' :: '\n' ::
            ((ls.text depth).toList ++ rest)))))) := by
  -- Without elements both brackets stand on the line of the field.
  by_cases hnil : os = .nil
  · refine ⟨[], [], isBlank_nil, isBlank_nil, fun rest => ?_⟩
    rw [hnil]
    simp [Lines.text, Elements.text, String.toList_append]
  · refine ⟨['\n'], (indentation depth).toList, isBlank_cons rfl isBlank_nil,
      isBlank_indentation depth, fun rest => ?_⟩
    have htext : (Lines.objects field os ls).text depth =
        indentation depth ++ field.name ++ ": " ++
          ("[\n" ++ os.text (depth + 1) ++ (indentation depth ++ "]")) ++ ",\n" ++
            ls.text depth := by
      cases os with
      | nil => exact absurd rfl hnil
      | cons => rfl
    rw [htext]
    simp [String.toList_append]

/-- An outline begins with a name. -/
theorem starts_outline (hobjects : plan.IsWritable env.registry root) {o : Outline} {r : Ref}
    (hdraws : o.Draws env.registry plan.heap r)
    (hreach : plan.heap.Reaches env.registry.visibleOf root r) {blanks : List Char}
    (hblanks : IsBlank blanks) (depth : Nat) (rest : List Char) :
    ∃ word rest', Lexeme.Starts (blanks ++ ((o.text depth).toList ++ rest)) (.name word) rest' := by
  cases o with
  | use x name =>
      have htext : ((Outline.use x name).text depth).toList ++ rest =
          "USE".toList ++ (' ' :: ((quote name).toList ++ rest)) := by
        simp [Outline.text, String.toList_append]
      rw [htext]
      exact ⟨_, _, (Lexeme.starts_name isWord_use (stops_cons rfl _)).blanks hblanks⟩
  | full x type name lines =>
      rcases hdraws with ⟨rfl, rfl, -⟩
      rcases hobjects x hreach with ⟨spec, hspec⟩
      rcases text_full depth x (plan.heap.get x).typeName name lines with
        ⟨front, back, -, -, htext⟩
      have hword : Lexeme.IsWord (plan.heap.get x).typeName := by
        rw [← Registry.typeName_of_find? hspec.found]
        exact hspec.spelled.1
      rw [htext]
      cases name with
      | none => exact ⟨_, _, (Lexeme.starts_name hword (stops_cons rfl _)).blanks hblanks⟩
      | some name =>
          -- With a name there is more behind the type, but no more of the word.
          have hheader : ∀ cs, (header (plan.heap.get x).typeName (some name)).toList ++ cs =
              (plan.heap.get x).typeName.toList ++ (' ' :: ((quote name).toList ++ cs)) := by
            intro cs
            simp [header, String.toList_append]
          rw [hheader]
          exact ⟨_, _, (Lexeme.starts_name hword (stops_cons rfl _)).blanks hblanks⟩

section

variable {heap : Heap} {c : Context} {field : FieldSpec} {vs : List Value} {type : ScalarType}
  {rest : List Char} {p : Position} {P : State → Prop}

/-- Scalars in brackets, up to the comma behind them. -/
theorem comesTo_listText (htype : field.kind.valueType = .scalar type)
    (hlist : field.kind.isList = true) (htypes : ∀ v ∈ vs, v.type = .scalar type ∧ v.ReadsBack)
    (h : ∀ q, ∃ heap' c', storeField heap c field q vs = .ok (heap', c') ∧
      ∀ p', ComesTo env (.inText env heap' c' (',' :: rest) p') P) :
    ComesTo env (.inText env heap (c.enter (.fieldValue field))
      (' ' :: ((scalarsText field vs).toList ++ ',' :: rest)) p) P := by
  have htext : ' ' :: ((scalarsText field vs).toList ++ ',' :: rest) =
      ' ' :: '[' :: ((String.intercalate ", " (vs.map Value.text)).toList ++ ']' :: ',' ::
        rest) := by
    simp [scalarsText, hlist, String.toList_append]
  have hturn : ∀ q, turn env.registry Location.stringSource heap (c.enter (.fieldValue field))
      ⟨.punct '[', q⟩ = .ok (.take heap (c.enter (.listItem field type q []))) := by
    intro q
    have hbegin : beginValue heap (c.enter (.fieldValue field)) field ⟨.punct '[', q⟩ =
        .ok (.take heap (c.enter (.listItem field type q []))) := by
      unfold beginValue
      simp only [htype, hlist, if_true]
      rfl
    exact hbegin
  rw [htext]
  refine comesTo_take ((Lexeme.starts_punct rfl _).blank rfl) (by decide)
    fun q => ⟨_, _, hturn q, fun p₁ => ?_⟩
  refine comesTo_list htypes isBlank_nil fun blanks p₂ hblanks => ?_
  rcases h q with ⟨heap', c', hstore, hrest⟩
  exact comesTo_listEnd hstore hblanks hrest

/-- As many scalars as the field has places, up to the comma behind them. -/
theorem comesTo_placesText (htype : field.kind.valueType = .scalar type)
    (hlist : field.kind.isList = false) (hlength : vs.length = field.kind.arity)
    (harity : field.kind.arity ≠ 0) (htypes : ∀ v ∈ vs, v.type = .scalar type ∧ v.ReadsBack)
    (h : ∀ q, ∃ heap' c', storeField heap c field q vs = .ok (heap', c') ∧
      ∀ p', ComesTo env (.inText env heap' c' (',' :: rest) p') P) :
    ComesTo env (.inText env heap (c.enter (.fieldValue field))
      (' ' :: ((scalarsText field vs).toList ++ ',' :: rest)) p) P := by
  cases vs with
  | nil => exact absurd hlength.symm harity
  | cons v vs =>
      have htext : (scalarsText field (v :: vs)).toList =
          (String.intercalate " " ((v :: vs).map Value.text)).toList := by
        simp [scalarsText, hlist]
      -- The first token is a value already, and as many are left as there are others.
      have hturn : ∀ l q, (∀ x, l ≠ .punct x) →
          turn env.registry Location.stringSource heap (c.enter (.fieldValue field)) ⟨l, q⟩ =
            takeScalar heap (c.enter (.fieldValue field)) field type q vs.length [] ⟨l, q⟩ := by
        intro l q _
        have hbegin : beginValue heap (c.enter (.fieldValue field)) field ⟨l, q⟩ =
            takeScalar heap (c.enter (.fieldValue field)) field type q vs.length [] ⟨l, q⟩ := by
          unfold beginValue
          simp only [htype, hlist, ← hlength, List.length_cons]
          rfl
        exact hbegin
      have hspace : IsBlank [' '] := isBlank_cons rfl isBlank_nil
      rw [htext]
      exact comesTo_scalars hturn htypes (stops_cons rfl rest) (stops_cons rfl rest) hspace h

/-- The scalars of a field, up to the comma behind them. -/
theorem comesTo_scalarsText (hgiven : Given env.registry plan.heap field vs)
    (hvs : ∀ v ∈ vs, IsScalar v)
    (h : ∀ q, ∃ heap' c', storeField heap c field q (plan.moved vs) = .ok (heap', c') ∧
      ∀ p', ComesTo env (.inText env heap' c' (',' :: rest) p') P) :
    ComesTo env (.inText env heap (c.enter (.fieldValue field))
      (' ' :: ((scalarsText field vs).toList ++ ',' :: rest)) p) P := by
  -- Scalars refer to nothing, so they are the same under other numbers.
  have hsame : plan.moved vs = vs := by
    refine (List.map_congr_left fun v hv => ?_).trans vs.map_id
    rcases hvs v hv with ⟨type, htype⟩
    exact Value.mapRefs_of_refs (Value.refs_of_type htype)
  rw [hsame] at h
  rcases hgiven.keeps with ⟨content, hkeeps⟩
  have hfits := hkeeps.fits
  cases htype : field.kind.valueType with
  | object =>
      rcases (FieldKind.fits_object_iff htype).1 hfits with ⟨r, rfl⟩
      rcases hvs _ List.mem_cons_self with ⟨_, hobject⟩
      cases hobject
  | objectList =>
      rcases (FieldKind.fits_objects_iff htype).1 hfits with ⟨rs, rfl⟩
      rcases hvs _ List.mem_cons_self with ⟨_, hobjects⟩
      cases hobjects
  | scalar type =>
      rw [FieldKind.fits_scalar_iff htype] at hfits
      have htypes : ∀ u ∈ vs, u.type = .scalar type ∧ u.ReadsBack :=
        fun u hu => ⟨hfits.1 u hu, hgiven.back u hu⟩
      cases hlist : field.kind.isList with
      | true => exact comesTo_listText htype hlist htypes h
      | false => exact comesTo_placesText htype hlist (hfits.2 hlist) hgiven.arity htypes h

end

theorem name_newObject {name : Option String} (hname : name ≠ some "") (source : Path)
    (spec : ObjectSpec) (start : Position) :
    (newObject source spec start (name.getD "")).name = name := by
  cases name with
  | none => rfl
  | some name =>
      have hne : name ≠ "" := fun heq => hname (congrArg some heq)
      exact if_neg hne

/-- A new object that has got all that is written of an object of the graph. -/
theorem image_of_filled {heap : Heap} {r : Ref} {spec : ObjectSpec} {start : Position}
    {name : Option String} (hspec : Writable env.registry plan.heap r spec)
    (hname : name = plan.names r ∧ name ≠ some "")
    (hfilled : plan.Filled (writtenFields env.registry (plan.heap.get r))
      (newObject Location.stringSource spec start (name.getD "")) (heap.get (plan.place r))) :
    plan.Image env.registry heap r where
  typeName := hfilled.typeName.trans (Registry.typeName_of_find? hspec.found)
  name := (hfilled.name.trans (name_newObject hname.2 ..)).trans hname.1
  fields := by
    intro field hfield
    -- A field that is set is a line of the body. No line has the name of a field that is not, so it
    -- is as it was in the new object, which had nothing set.
    cases hfetch : (plan.heap.get r).fetch? field with
    | some vs => exact hfilled.fetch (field, vs) (mem_writtenFields.2 ⟨hfield, hfetch⟩)
    | none =>
        have hother : ∀ line ∈ writtenFields env.registry (plan.heap.get r),
            line.1.name ≠ field.name := by
          intro line hline heq
          rcases mem_writtenFields.1 hline with ⟨hvisible, hsome⟩
          have hfound := hspec.visible line.1 hvisible
          rw [heq, hspec.visible field hfield, Option.some.injEq] at hfound
          rw [← hfound, hfetch] at hsome
          cases hsome
        rw [Instance.fetch?, hfilled.other field.name hother]
        rfl

/-- A new object has come up with all that its lines hold. -/
theorem grown_of_passed {heap heap' : Heap} {scopes : Scopes} {done new : List Ref} {r : Ref}
    {spec : ObjectSpec} {start : Position} {name : Option String}
    (hspec : Writable env.registry plan.heap r spec)
    (hname : name = plan.names r ∧ name ≠ some "") (hplace : plan.place r = heap.size)
    (hpassed : plan.Passed env.registry done heap.size
      (heap.alloc (newObject Location.stringSource spec start (name.getD ""))) heap' scopes new
      (writtenFields env.registry (plan.heap.get r))) :
    plan.Grown env.registry [] heap heap' (r :: new) := by
  have hgrown := hpassed.grown
  have hfilled := hpassed.filled
  rw [Heap.get_alloc, if_pos rfl, ← hplace] at hfilled
  have hsize := hgrown.size
  rw [Heap.size_alloc] at hsize
  -- Old objects are neither the new one nor touched by its lines.
  have hsame : ∀ x < heap.size, heap'.get x = heap.get x := by
    intro x hx
    have hne : x ≠ heap.size := Nat.ne_of_lt hx
    have hlt : x < (heap.alloc (newObject Location.stringSource spec start (name.getD ""))).size :=
      Heap.size_alloc .. ▸ Nat.lt_succ_of_lt hx
    rw [hgrown.same x hlt (by simpa using hne), Heap.get_alloc, if_neg hne]
  refine ⟨by simp; omega, ⟨by omega, fun x hx => by rw [hsame x hx]⟩, fun x hx _ => hsame x hx,
    fun x hx => ?_⟩
  rcases List.mem_cons.1 hx with rfl | hx
  · exact ⟨Nat.le_of_eq hplace.symm, by lia, image_of_filled hspec hname hfilled⟩
  · rcases hgrown.images x hx with ⟨hle, hlt, himage⟩
    rw [Heap.size_alloc] at hle
    exact ⟨by omega, hlt, himage⟩

/-- The header and the braces of an object come up, given what its lines come to. -/
theorem comesTo_full {heap : Heap} {c : Context} {target : Target} {r : Ref} {spec : ObjectSpec}
    {name : Option String} {lines : Lines} {blanks rest : List Char} {p : Position}
    {P : State → Prop} (depth : Nat) (done : List Ref)
    (hspec : Writable env.registry plan.heap r spec)
    (hname : name = plan.names r ∧ name ≠ some "") (hplace : plan.place r = heap.size)
    (htarget : target ≠ .template) (hblanks : IsBlank blanks)
    (hlines : ∀ {start front rest p}, IsBlank front →
      (∀ heap' scopes' seen blanks' p', plan.Passed env.registry done heap.size
          (heap.alloc (newObject Location.stringSource spec start (name.getD ""))) heap' scopes'
          (fulls lines.visits) (writtenFields env.registry (plan.heap.get r)) →
        IsBlank blanks' →
        ComesTo env (.inText env heap'
          ⟨scopes', ⟨heap.size, spec, start, target, seen⟩ :: c.bodies, .item⟩ (blanks' ++ rest)
          p') P) →
      ComesTo env (.inText env
        (heap.alloc (newObject Location.stringSource spec start (name.getD "")))
        ⟨c.scopes.open, ⟨heap.size, spec, start, target, false⟩ :: c.bodies, .item⟩
        (front ++ ((lines.text (depth + 1)).toList ++ rest)) p) P)
    (h : ∀ heap' scopes', plan.Grown env.registry [] heap heap' (r :: fulls lines.visits) →
      plan.Scoped scopes' (done ++ r :: fulls lines.visits) →
      ∃ heap'' c'', deliver env.registry heap' { c with scopes := scopes' } target (plan.place r) =
          .ok (heap'', c'') ∧ ∀ p', ComesTo env (.inText env heap'' c'' rest p') P) :
    ComesTo env (.inText env heap (c.enter (.object target)) (blanks ++
      (((Outline.full r (plan.heap.get r).typeName name lines).text depth).toList ++ rest)) p)
      P := by
  have htype := Registry.typeName_of_find? hspec.found
  rcases text_full depth r (plan.heap.get r).typeName name lines with
    ⟨front, back, hfront, hback, htext⟩
  rw [htext, ← htype]
  refine comesTo_header (htype ▸ hspec.found) hspec.spelled hspec.concrete hblanks
    fun start p₁ => ?_
  refine hlines hfront fun heap' scopes' seen blanks' p₂ hpassed hblanks' => ?_
  -- Behind the lines the object is as planned.
  have hgrown := grown_of_passed hspec hname hplace hpassed
  have hnamed : (heap'.get heap.size).name = plan.names r :=
    hplace ▸ (hgrown.images r List.mem_cons_self).2.2.name
  -- The object is known by its name from here on.
  have hdeclared : plan.Scoped (scopes'.close.declare (plan.names r) (plan.place r))
      (done ++ r :: fulls lines.visits) := by
    refine (hpassed.names.close.declare r).mono fun x hx => ?_
    simp only [List.mem_append, List.mem_cons, List.not_mem_nil, or_false] at hx ⊢
    tauto
  rcases h heap' _ hgrown hdeclared with ⟨heap'', c'', hdeliver, hrest⟩
  rw [← List.append_assoc]
  rw [← hnamed, hplace, ← deliver_enter .item] at hdeliver
  exact comesTo_close (c := ⟨scopes', ⟨heap.size, spec, start, target, seen⟩ :: c.bodies, .item⟩)
    rfl htarget hdeliver (isBlank_append hblanks' hback) hrest

/-- An object is the value of a field for objects. -/
theorem beginValue_object {heap : Heap} {c : Context} {field : FieldSpec} {r : Ref} {l : Lexeme}
    {q : Position} (hgiven : Given env.registry plan.heap field [.object r]) :
    turn env.registry Location.stringSource heap (c.enter (.fieldValue field)) ⟨l, q⟩ =
      .ok (.keep heap (c.enter (.object (.field field q)))) := by
  rcases hgiven.keeps with ⟨content, hkeeps⟩
  have htype : field.kind.valueType = .object := by
    have hfits := hkeeps.fits
    cases htype : field.kind.valueType with
    | object => rfl
    | scalar type => cases ((FieldKind.fits_scalar_iff htype).1 hfits).1 _ List.mem_cons_self
    | objectList =>
        rcases (FieldKind.fits_objects_iff htype).1 hfits with ⟨rs, heq⟩
        cases heq
  have hbegin : beginValue heap (c.enter (.fieldValue field)) field ⟨l, q⟩ =
      .ok (.keep heap (c.enter (.object (.field field q)))) := by
    unfold beginValue
    simp only [htype]
    rfl
  exact hbegin

/-- The bracket in front of a list of objects. -/
theorem beginValue_objects {heap : Heap} {c : Context} {field : FieldSpec} {rs : List Ref}
    {q : Position} (hgiven : Given env.registry plan.heap field [.objects rs]) :
    turn env.registry Location.stringSource heap (c.enter (.fieldValue field)) ⟨.punct '[', q⟩ =
      .ok (.take heap (c.enter (.element field q []))) := by
  rcases hgiven.keeps with ⟨content, hkeeps⟩
  have htype : field.kind.valueType = .objectList := by
    have hfits := hkeeps.fits
    cases htype : field.kind.valueType with
    | objectList => rfl
    | scalar type => cases ((FieldKind.fits_scalar_iff htype).1 hfits).1 _ List.mem_cons_self
    | object =>
        rcases (FieldKind.fits_object_iff htype).1 hfits with ⟨r, heq⟩
        cases heq
  have hbegin : beginValue heap (c.enter (.fieldValue field)) field ⟨.punct '[', q⟩ =
      .ok (.take heap (c.enter (.element field q []))) := by
    unfold beginValue
    simp only [htype]
    rfl
  exact hbegin

/-- The comma behind the value of a field, and the lines behind it. -/
theorem comesTo_behind {heap heap' : Heap} {scopes : Scopes} {body : Body} {outer : List Body}
    {done new more : List Ref} {line : FieldSpec × List Value}
    {fields : List (FieldSpec × List Value)} {text rest : List Char} {p : Position}
    {P : State → Prop}
    (hpassed : plan.Passed env.registry done body.object heap heap' scopes new [line])
    (ho : body.object < heap.size)
    (hnodup : ((line :: fields).map fun line => line.1.name).Nodup)
    (hlines : ∀ {blanks p}, IsBlank blanks →
      (∀ heap'' scopes' seen blanks' p', plan.Passed env.registry (done ++ new) body.object heap'
          heap'' scopes' more fields → IsBlank blanks' →
        ComesTo env (.inText env heap'' ⟨scopes', { body with seenField := seen } :: outer, .item⟩
          (blanks' ++ rest) p') P) →
      ComesTo env (.inText env heap' ⟨scopes, { body with seenField := true } :: outer, .item⟩
        (blanks ++ (text ++ rest)) p) P)
    (h : ∀ heap'' scopes' seen blanks' p', plan.Passed env.registry done body.object heap heap''
        scopes' (new ++ more) (line :: fields) → IsBlank blanks' →
      ComesTo env (.inText env heap'' ⟨scopes', { body with seenField := seen } :: outer, .item⟩
        (blanks' ++ rest) p') P) :
    ComesTo env (.inText env heap' ⟨scopes, { body with seenField := true } :: outer, .itemEnd⟩
      (',' :: '\n' :: (text ++ rest)) p) P := by
  rw [List.map_cons, List.nodup_cons] at hnodup
  refine comesTo_take (Lexeme.starts_punct rfl _) (by decide) fun q => ⟨_, _, rfl, fun p₁ => ?_⟩
  have hnewline : IsBlank ['\n'] := isBlank_cons rfl isBlank_nil
  refine hlines hnewline fun heap'' scopes' seen blanks' p₂ hrest hblanks' => ?_
  refine h heap'' scopes' seen blanks' p₂ (hpassed.append hrest ho ?_) hblanks'
  -- No other line of the body stores to the same field.
  intro first hfirst other hother heq
  rw [List.mem_singleton.1 hfirst] at heq
  exact hnodup.1 (List.mem_map.2 ⟨other, hother, heq⟩)

mutual

/-- Reading an object. -/
theorem comesTo_outline (hobjects : plan.IsWritable env.registry root) (o : Outline)
    {heap : Heap} {c : Context} {target : Target} {done : List Ref} {r : Ref}
    {blanks rest : List Char} {p : Position} {P : State → Prop} {depth : Nat}
    (hdraws : o.Draws env.registry plan.heap r)
    (hreach : plan.heap.Reaches env.registry.visibleOf root r)
    (hnamed : Named plan.names o.visits) (hground : o.Grounded done)
    (hnumbered : Numbered plan.place heap.size o.visits)
    (hknown : plan.Known heap done) (hscoped : plan.Scoped c.scopes done)
    (htarget : target ≠ .template) (hblanks : IsBlank blanks)
    (h : ∀ heap' scopes', plan.Grown env.registry [] heap heap' (fulls o.visits) →
      plan.Scoped scopes' (done ++ fulls o.visits) → plan.Known heap' [r] →
      ∃ heap'' c'', deliver env.registry heap' { c with scopes := scopes' } target (plan.place r) =
          .ok (heap'', c'') ∧ ∀ p', ComesTo env (.inText env heap'' c'' rest p') P) :
    ComesTo env (.inText env heap (c.enter (.object target))
      (blanks ++ ((o.text depth).toList ++ rest)) p) P := by
  cases o with
  | use x name =>
      -- Whatever has this name by now is the object itself, whose body is done.
      have hvisit := hnamed _ (List.mem_singleton_self _)
      have hx : x = r := hdraws
      have hdone : r ∈ done := hx ▸ hground
      have hname : plan.names r = some name := hx ▸ hvisit.1.symm
      have hresolve := hscoped.resolve hdone hname fun y hy => hx ▸ hvisit.2.2 rfl y hy
      have hone : plan.Known heap [r] := fun y hy => hknown y (List.mem_singleton.1 hy ▸ hdone)
      rcases h heap c.scopes (.refl ..) (hscoped.mono (by simp [fulls, Outline.visits])) hone with
        ⟨heap'', c'', hdeliver, hrest⟩
      exact comesTo_use hresolve hdeliver hblanks hrest
  | full x type name lines =>
      rcases hdraws with ⟨rfl, rfl, hlines⟩
      rcases hobjects x hreach with ⟨spec, hspec⟩
      rcases List.forall_mem_cons.1 hnamed with ⟨hvisit, hnamed⟩
      rcases numbered_cons.1 hnumbered with ⟨hplace, hnumbered⟩
      -- The new object gets the next number, and the bodies inside get those behind it.
      refine comesTo_full depth done hspec ⟨hvisit.1, hvisit.2.1⟩ hplace htarget hblanks ?_ ?_
      · intro start front rest p hfront h
        -- What was known before the object is known inside of it.
        have hnew : plan.Known (heap.alloc (newObject Location.stringSource spec start
            (name.getD ""))) done := by
          intro y hy
          rcases hknown y hy with ⟨hlt, htype⟩
          have hne : plan.place y ≠ heap.size := Nat.ne_of_lt hlt
          rw [Heap.size_alloc, Heap.get_alloc, if_neg hne]
          exact ⟨Nat.lt_succ_of_lt hlt, htype⟩
        refine comesTo_lines hobjects lines hlines (fun line hline => ?_) hspec.nodup hnamed hground
          ?_ hnew hscoped.open ?_ hfront h
        · refine ⟨hspec.visible line.1 (mem_writtenFields.1 hline).1, hspec.lines line hline,
            fun y hy => hreach.tail ?_⟩
          unfold Heap.Linked
          rw [children_eq_writtenFields]
          exact List.mem_flatMap.2 ⟨line, hline, hy⟩
        · rw [Heap.size_alloc]
          exact hnumbered
        · rw [Heap.size_alloc]
          exact Nat.lt_succ_self _
      · intro heap' scopes' hgrown hscoped'
        refine h heap' scopes' hgrown hscoped' fun y hy => ?_
        rw [List.mem_singleton.1 hy]
        rcases hgrown.images x List.mem_cons_self with ⟨-, hlt, himage⟩
        exact ⟨hlt, himage.typeName⟩

/-- Reading the lines of a body. -/
theorem comesTo_lines (hobjects : plan.IsWritable env.registry root) (ls : Lines)
    {heap : Heap} {scopes : Scopes} {body : Body} {outer : List Body} {done : List Ref}
    {fields : List (FieldSpec × List Value)} {blanks rest : List Char} {p : Position}
    {P : State → Prop} {depth : Nat}
    (hdraws : ls.Draws env.registry plan.heap fields)
    (hlines : ∀ line ∈ fields, plan.Line env.registry root body.spec line)
    (hnodup : (fields.map fun line => line.1.name).Nodup)
    (hnamed : Named plan.names ls.visits) (hground : ls.Grounded done)
    (hnumbered : Numbered plan.place heap.size ls.visits)
    (hknown : plan.Known heap done) (hscoped : plan.Scoped scopes done)
    (ho : body.object < heap.size) (hblanks : IsBlank blanks)
    (h : ∀ heap' scopes' seen blanks' p', plan.Passed env.registry done body.object heap heap'
        scopes' (fulls ls.visits) fields → IsBlank blanks' →
      ComesTo env (.inText env heap' ⟨scopes', { body with seenField := seen } :: outer, .item⟩
        (blanks' ++ rest) p') P) :
    ComesTo env (.inText env heap ⟨scopes, body :: outer, .item⟩
      (blanks ++ ((ls.text depth).toList ++ rest)) p) P := by
  cases ls with
  | nil =>
      have hfields : fields = [] := hdraws
      rw [hfields] at h
      have hnothing : plan.Passed env.registry done body.object heap heap scopes [] [] :=
        ⟨.refl .., by simpa using hscoped, .nil ..⟩
      simpa [Lines.text] using h heap scopes body.seenField blanks p hnothing hblanks
  | scalars field vs others =>
      rcases hdraws with ⟨fields, rfl, hscalars, hothers⟩
      rcases List.forall_mem_cons.1 hlines with ⟨hline, hlines⟩
      have htext : ((Lines.scalars field vs others).text depth).toList ++ rest =
          (indentation depth).toList ++ (field.name.toList ++ ':' :: (' ' ::
            ((scalarsText field vs).toList ++ ',' :: '\n' :: ((others.text depth).toList ++
              rest)))) := by
        simp [Lines.text, String.toList_append]
      rw [htext, ← List.append_assoc]
      refine comesTo_name (c := ⟨scopes, body :: outer, .item⟩) rfl hline.found hline.given.spelled
        (isBlank_append hblanks (isBlank_indentation depth)) fun p₁ => ?_
      -- The values are stored behind the last of them.
      refine comesTo_scalarsText hline.given hscalars fun q => ?_
      rcases exists_line (.fieldValue field) hline.given ho (.refl ..) (by simpa using hscoped) q
        with ⟨heap', hstore, hpassed⟩
      refine ⟨_, _, hstore, fun p₂ => ?_⟩
      refine comesTo_behind hpassed ho hnodup (fun hblanks h => ?_) h
      refine comesTo_lines hobjects others hothers hlines (List.nodup_cons.1 hnodup).2 hnamed
        ?_ ?_ (hknown.grow hpassed.grown) hpassed.names
        (Nat.lt_of_lt_of_le ho hpassed.grown.keeps.1) hblanks h
      · rw [List.append_nil]
        exact hground
      · rw [hpassed.grown.size]
        exact hnumbered
  | object field o others =>
      rcases hdraws with ⟨x, fields, rfl, hobject, hothers⟩
      rcases List.forall_mem_cons.1 hlines with ⟨hline, hlines⟩
      rcases named_append.1 hnamed with ⟨hnamedo, hnamed⟩
      rcases numbered_append.1 hnumbered with ⟨hnumberedo, hnumbered⟩
      have htext : ((Lines.object field o others).text depth).toList ++ rest =
          (indentation depth).toList ++ (field.name.toList ++ ':' :: ([' '] ++
            ((o.text depth).toList ++ ',' :: '\n' :: ((others.text depth).toList ++ rest)))) := by
        simp [Lines.text, String.toList_append]
      have hx : x ∈ [Value.object x].flatMap Value.refs := by simp [Value.refs]
      have hspace : IsBlank [' '] := isBlank_cons rfl isBlank_nil
      rw [htext, ← List.append_assoc]
      refine comesTo_name (c := ⟨scopes, body :: outer, .item⟩) rfl hline.found hline.given.spelled
        (isBlank_append hblanks (isBlank_indentation depth)) fun p₁ => ?_
      -- The first name of the object is looked at twice, here and as the beginning of the object.
      rcases starts_outline hobjects hobject (hline.reach x hx) hspace depth (',' :: '\n' ::
        ((others.text depth).toList ++ rest)) with ⟨word, rest', hstarts⟩
      refine comesTo_keep hstarts nofun fun q => ⟨_, _, beginValue_object hline.given, ?_⟩
      refine comesTo_outline hobjects o (c := ⟨scopes, body :: outer, .item⟩) hobject
        (hline.reach x hx) hnamedo hground.1 hnumberedo hknown hscoped nofun hspace
        fun heap' scopes' hgrown hscoped' hcome => ?_
      rcases exists_line .item hline.given ho hgrown hscoped' q with ⟨heap'', hstore, hpassed⟩
      -- The object is of the type that the field requires.
      have hcheck := checkObject_of_known (hline.given.meets x hx)
        (hcome x (List.mem_singleton_self x)).2 q
      refine ⟨_, _, (congrArg (· >>= fun _ => _) hcheck).trans hstore, fun p₂ => ?_⟩
      refine comesTo_behind hpassed ho hnodup (fun hblanks h => ?_)
        (by rw [← fulls_append]; exact h)
      refine comesTo_lines hobjects others hothers hlines (List.nodup_cons.1 hnodup).2 hnamed
        hground.2 ?_ (hknown.grow hpassed.grown) hpassed.names
        (Nat.lt_of_lt_of_le ho hpassed.grown.keeps.1) hblanks h
      rw [hpassed.grown.size]
      exact hnumbered
  | objects field os others =>
      rcases hdraws with ⟨rs, fields, rfl, hobjects', hothers⟩
      rcases List.forall_mem_cons.1 hlines with ⟨hline, hlines⟩
      rcases named_append.1 hnamed with ⟨hnamedos, hnamed⟩
      rcases numbered_append.1 hnumbered with ⟨hnumberedos, hnumbered⟩
      rcases text_objects depth field os others with ⟨front, back, hfront, hback, htext⟩
      have hrs : ∀ r ∈ rs, r ∈ [Value.objects rs].flatMap Value.refs :=
        fun r hr => by simpa [Value.refs] using hr
      rw [htext, ← List.append_assoc]
      refine comesTo_name (c := ⟨scopes, body :: outer, .item⟩) rfl hline.found hline.given.spelled
        (isBlank_append hblanks (isBlank_indentation depth)) fun p₁ => ?_
      refine comesTo_take ((Lexeme.starts_punct rfl _).blank rfl) (by decide)
        fun q => ⟨_, _, beginValue_objects hline.given, fun p₂ => ?_⟩
      refine comesTo_elements hobjects os (c := ⟨scopes, body :: outer, .item⟩) hobjects'
        (fun r hr => hline.reach r (hrs r hr)) (fun r hr => hline.given.meets r (hrs r hr))
        hnamedos hground.1 hnumberedos hknown hscoped hfront
        fun heap' scopes' blanks' p₃ hgrown hscoped' hblanks' => ?_
      -- The whole list is stored behind its closing bracket.
      rcases exists_line (.element field q (rs.map plan.place)) hline.given ho hgrown hscoped' q
        with ⟨heap'', hstore, hpassed⟩
      rw [← List.append_assoc]
      refine comesTo_take ((Lexeme.starts_punct rfl _).blanks (isBlank_append hblanks' hback))
        (by decide) fun q' => ⟨_, _, congrArg takeWith hstore, fun p₄ => ?_⟩
      refine comesTo_behind hpassed ho hnodup (fun hblanks h => ?_)
        (by rw [← fulls_append]; exact h)
      refine comesTo_lines hobjects others hothers hlines (List.nodup_cons.1 hnodup).2 hnamed
        hground.2 ?_ (hknown.grow hpassed.grown) hpassed.names
        (Nat.lt_of_lt_of_le ho hpassed.grown.keeps.1) hblanks h
      rw [hpassed.grown.size]
      exact hnumbered

/-- Reading the lines of a list. -/
theorem comesTo_elements (hobjects : plan.IsWritable env.registry root) (os : Elements)
    {heap : Heap} {c : Context} {field : FieldSpec} {start : Position} {before : List Ref}
    {done : List Ref} {rs : List Ref} {blanks rest : List Char} {p : Position}
    {P : State → Prop} {depth : Nat}
    (hdraws : os.Draws env.registry plan.heap rs)
    (hreach : ∀ r ∈ rs, plan.heap.Reaches env.registry.visibleOf root r)
    (hmeets : ∀ r ∈ rs, plan.heap.Meets env.registry field r)
    (hnamed : Named plan.names os.visits) (hground : os.Grounded done)
    (hnumbered : Numbered plan.place heap.size os.visits)
    (hknown : plan.Known heap done) (hscoped : plan.Scoped c.scopes done)
    (hblanks : IsBlank blanks)
    (h : ∀ heap' scopes' blanks' p', plan.Grown env.registry [] heap heap' (fulls os.visits) →
      plan.Scoped scopes' (done ++ fulls os.visits) → IsBlank blanks' →
      ComesTo env (.inText env heap' ({ c with scopes := scopes' }.enter
        (.element field start (before ++ rs.map plan.place))) (blanks' ++ rest) p') P) :
    ComesTo env (.inText env heap (c.enter (.element field start before))
      (blanks ++ ((os.text depth).toList ++ rest)) p) P := by
  cases os with
  | nil =>
      have hnothing : rs = [] := hdraws
      rw [hnothing, List.map_nil, List.append_nil] at h
      simpa [Elements.text] using h heap c.scopes blanks p (.refl ..)
        (hscoped.mono (by simp [fulls, Elements.visits])) hblanks
  | cons o others =>
      rcases hdraws with ⟨x, rs, rfl, hobject, hothers⟩
      rcases List.forall_mem_cons.1 hreach with ⟨hx, hreach⟩
      rcases List.forall_mem_cons.1 hmeets with ⟨hmeet, hmeets⟩
      rcases named_append.1 hnamed with ⟨hnamedo, hnamed⟩
      rcases numbered_append.1 hnumbered with ⟨hnumberedo, hnumbered⟩
      have htext : ((Elements.cons o others).text depth).toList ++ rest =
          (indentation depth).toList ++ ((o.text depth).toList ++ ',' :: '\n' ::
            ((others.text depth).toList ++ rest)) := by
        simp [Elements.text, String.toList_append]
      have hfront := isBlank_append hblanks (isBlank_indentation depth)
      rw [htext, ← List.append_assoc]
      rcases starts_outline hobjects hobject hx hfront depth (',' :: '\n' ::
        ((others.text depth).toList ++ rest)) with ⟨word, rest', hstarts⟩
      -- No bracket closes the list here, so an object begins.
      have helement : ∀ q, turn env.registry Location.stringSource heap
          (c.enter (.element field start before)) ⟨.name word, q⟩ =
            .ok (.keep heap (c.enter (.object (.element field start q before)))) :=
        fun q => rfl
      refine comesTo_keep hstarts nofun fun q => ⟨_, _, helement q, ?_⟩
      refine comesTo_outline hobjects o hobject hx hnamedo hground.1 hnumberedo hknown hscoped nofun
        hfront fun heap' scopes' hgrown hscoped' hcome => ?_
      have hcheck := checkObject_of_known hmeet (hcome x (List.mem_singleton_self x)).2 q
      refine ⟨_, _, congrArg (· >>= fun _ => _) hcheck, fun p₁ => ?_⟩
      refine comesTo_take (Lexeme.starts_punct rfl _) (by decide)
        fun q' => ⟨_, _, rfl, fun p₂ => ?_⟩
      have hnewline : IsBlank ['\n'] := isBlank_cons rfl isBlank_nil
      -- This element is one of those before the others.
      refine comesTo_elements hobjects others (c := { c with scopes := scopes' }) hothers hreach
        hmeets hnamed hground.2 (by rw [hgrown.size]; exact hnumbered) (hknown.grow hgrown)
        hscoped' hnewline fun heap'' scopes'' blanks' p₃ hgrown' hscoped'' hblanks' => ?_
      have hboth : plan.Grown env.registry [] heap heap'' (fulls (o.visits ++ others.visits)) := by
        rw [fulls_append]
        exact hgrown.trans hgrown' fun y hy => nomatch hy
      have hnames : plan.Scoped scopes'' (done ++ fulls (o.visits ++ others.visits)) := by
        rw [fulls_append, ← List.append_assoc]
        exact hscoped''
      rw [List.append_assoc]
      exact h heap'' scopes'' blanks' p₃ hboth hnames hblanks'

end

end

end Plan

end Reader

end GraphText

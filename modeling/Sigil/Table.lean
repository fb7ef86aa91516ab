/-!
# Tables

A table binds names to entries in the order in which the names were first bound. Binding a name
again keeps its position and replaces its entry.
-/

namespace Sigil

abbrev Table (α : Type) := List (String × α)

namespace Table

variable {α : Type}

def get? (name : String) : Table α → Option α
  | [] => none
  | (key, entry) :: rest => if key = name then some entry else get? name rest

def insert (name : String) (entry : α) : Table α → Table α
  | [] => [(name, entry)]
  | (key, old) :: rest =>
    if key = name then (key, entry) :: rest else (key, old) :: insert name entry rest

/-- The names that a table binds, in their order. -/
def names (t : Table α) : List String :=
  t.map (·.1)

@[simp] theorem get?_insert_self (name : String) (entry : α) (t : Table α) :
    get? name (insert name entry t) = some entry := by
  induction t with
  | nil => simp [insert, get?]
  | cons p t ih => by_cases h : p.1 = name <;> simp [insert, get?, h, ih]

theorem get?_insert_of_ne {name other : String} (h : other ≠ name) (entry : α) (t : Table α) :
    get? other (insert name entry t) = get? other t := by
  induction t with
  | nil => simp [insert, get?, h.symm]
  | cons p t ih => by_cases hp : p.1 = name <;> simp [insert, get?, hp, h.symm, ih]

theorem isSome_get?_iff {name : String} {t : Table α} :
    (get? name t).isSome ↔ name ∈ names t := by
  induction t with
  | nil => simp [get?, names]
  | cons p t ih =>
    by_cases h : p.1 = name
    · simp [get?, names, h]
    · simpa [get?, names, h, Ne.symm h] using ih

/-- A name that is bound already keeps its position, and a new one comes last. -/
theorem names_insert (name : String) (entry : α) (t : Table α) :
    names (insert name entry t) = if name ∈ names t then names t else names t ++ [name] := by
  induction t with
  | nil => simp [insert, names]
  | cons p t ih =>
    by_cases h : p.1 = name
    · simp [insert, names, h]
    · have ih' : (insert name entry t).map (·.1) = _ := ih
      by_cases hm : name ∈ names t <;> simp_all [insert, names, Ne.symm h]

end Table

end Sigil

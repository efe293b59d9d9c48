/-! A table keeps its entries in the order in which their keys first came; a later value for a key takes
the place of the earlier one. -/

set_option autoImplicit false

namespace ApiDocs

abbrev Table (κ α : Type) := List (κ × α)

namespace Table

variable {κ α : Type} [DecidableEq κ]

def put (key : κ) (value : α) : Table κ α → Table κ α
  | [] => [(key, value)]
  | entry :: entries =>
    if entry.1 = key then (key, value) :: entries else entry :: put key value entries

def get? (key : κ) : Table κ α → Option α
  | [] => none
  | entry :: entries => if entry.1 = key then some entry.2 else get? key entries

def ofList (entries : List (κ × α)) : Table κ α :=
  entries.foldl (fun table entry => put entry.1 entry.2 table) []

theorem get?_put (key other : κ) (value : α) (table : Table κ α) :
    get? other (put key value table) = if key = other then some value else get? other table := by
  induction table with
  | nil => rfl
  | cons entry entries ih =>
    by_cases h : entry.1 = key <;> by_cases h' : key = other <;> simp_all [put, get?]

end Table
end ApiDocs

/-!
# Maps with names as keys

Entries in ascending order of names, each name once.  Names are compared character by character,
which orders their UTF-8 bytes in the same way.
-/

namespace WeightedCsp

/-- Entries in ascending order of names. -/
abbrev NameMap (α : Type) : Type := List (String × α)

namespace NameMap

variable {α : Type}

/-- Enters a value, in place of an earlier one of the same name. -/
def insert (name : String) (value : α) : NameMap α → NameMap α
  | [] => [(name, value)]
  | (n, v) :: rest =>
    if name = n then (name, value) :: rest
    else if name < n then (name, value) :: (n, v) :: rest
    else (n, v) :: insert name value rest

/-- The map of the given entries; of several entries of one name the last counts. -/
def ofList (entries : List (String × α)) : NameMap α :=
  entries.foldl (fun m e => insert e.1 e.2 m) []

/-- The value of a name. -/
def get? (m : NameMap α) (name : String) : Option α := m.lookup name

end NameMap

end WeightedCsp

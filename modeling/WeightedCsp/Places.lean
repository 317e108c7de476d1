import WeightedCsp.Fault

/-!
# Places of named entries

Entries stand in a list in the order in which they came, and a table beside the list says where the
entry of a name stands.  The two are changed one after the other, so a table may be wrong; then the
list is read outside its bounds, or at another entry.
-/

namespace WeightedCsp

/-- The places of named entries in a list, the newest first. -/
abbrev Places : Type := List (String × Nat)

namespace Places

/-- The name has an entry. -/
def contains (places : Places) (name : String) : Bool := (places.lookup name).isSome

/-- The entry of a name. -/
def find {α : Type} (places : Places) (entries : List α) (name : String) : Checked (Option α) :=
  match places.lookup name with
  | some place => do return some (← Checked.entry entries place)
  | none => return none

/-- The places of entries with the given names. -/
def ofNames (names : List String) : Places := names.zipIdx.reverse

end Places

end WeightedCsp

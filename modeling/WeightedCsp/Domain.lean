import WeightedCsp.Ascending
import WeightedCsp.ModelError

/-!
# Finite domains

A domain is a finite, non-empty set of integers, held in ascending order.  Order and
non-emptiness are part of the type, so the least and the greatest value always exist.
-/

namespace WeightedCsp

/-- A non-empty, strictly ascending list of integers. -/
structure Domain where
  /-- The values in ascending order. -/
  values : List Int
  /-- Each value is above the one before it. -/
  ascending : values.Pairwise (· < ·)
  /-- There is a value. -/
  nonempty : values ≠ []
deriving DecidableEq

namespace Domain

/-- The domain of the given values, in any order and with repetitions. -/
def ofList (xs : List Int) : Except ModelError Domain :=
  if h : xs = [] then .error .emptyDomain
  else .ok ⟨Ascending.ofList xs, Ascending.pairwise_ofList xs, Ascending.ofList_ne_nil h⟩

/-- The domain of the integers from `lb` to `ub`. -/
def range (lb ub : Int) : Except ModelError Domain := ofList (Ascending.range lb ub)

/-- The domain of the truth values `0` and `1`. -/
def bit : Domain := ⟨[0, 1], by decide, by decide⟩

/-- The domain of the integers from zero to `n`. -/
def upTo (n : Nat) : Domain :=
  ⟨Ascending.range 0 n, Ascending.pairwise_range 0 n,
    List.ne_nil_of_mem ((Ascending.mem_range 0 0 n).2 (by omega))⟩

/-- The least value. -/
def lb (d : Domain) : Int := d.values.head d.nonempty

/-- The greatest value. -/
def ub (d : Domain) : Int := d.values.getLast d.nonempty

/-- The number of values. -/
def size (d : Domain) : Nat := d.values.length

instance : Membership Int Domain where
  mem d x := x ∈ d.values

instance (x : Int) (d : Domain) : Decidable (x ∈ d) :=
  inferInstanceAs (Decidable (x ∈ d.values))

/-- The place of a value among the values in ascending order. -/
def indexOf? (d : Domain) (x : Int) : Option Nat := d.values.findIdx? (· = x)

/-- The domain as a set in braces. -/
def text (d : Domain) : String :=
  "\x7b" ++ ", ".intercalate (d.values.map Int.repr) ++ "\x7d"

@[simp]
theorem mem_values {x : Int} {d : Domain} : x ∈ d.values ↔ x ∈ d := Iff.rfl

end Domain

end WeightedCsp

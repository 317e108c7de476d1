import WeightedCsp.Decimal
import WeightedCsp.Model

/-!
# Rosters

Every member of the staff works one shift or has a day off on each day of a horizon.  Shifts are
numbered from one, and zero is the day off.  A roster says which rules the assignment has to obey,
and which wishes it should fulfil at which price.
-/

namespace WeightedCsp

namespace Roster

/-- The size of a roster and the prices of its wishes. -/
structure Params where
  /-- The number of members of the staff. -/
  staff : Nat := 4
  /-- The number of days. -/
  days : Nat := 7
  /-- The number of shifts, the day off not counted. -/
  shifts : Nat := 2
  /-- The greatest number of working days in a row. -/
  maxConsecutive : Nat := 4
  /-- The least number of working days in a row between two days off. -/
  minConsecutive : Nat := 2
  /-- The lowest weight of a request. -/
  requestLow : Int := 1
  /-- The highest weight of a request. -/
  requestHigh : Int := 3
  /-- The weight of a member who is missing on a shift. -/
  underWeight : Int := 100
  /-- The weight of a member who is too many on a shift. -/
  overWeight : Int := 1
deriving DecidableEq, Repr

/-- The wish to work a shift on a day, or not to. -/
structure Request where
  staff : Nat
  day : Nat
  shift : Nat
  weight : Int
deriving DecidableEq, Repr

/-- Why there is no roster, or no model of it. -/
inductive Error where
  /-- There are no staff, no days or no shifts. -/
  | empty
  /-- The least number of working days in a row is above the greatest. -/
  | consecutive
  /-- The number of members that a shift can have is no machine integer. -/
  | tooManyStaff
  /-- The number of shifts is no machine integer. -/
  | tooManyShifts
  /-- The number of a shift is no machine integer. -/
  | shiftOutOfRange
  /-- A part of the model cannot be built. -/
  | model (e : ModelError)
deriving DecidableEq, Repr

/-- The wording of the error, outermost part first. -/
def Error.chain : Error → List String
  | .empty => ["a roster needs staff, days and shifts"]
  | .consecutive => ["minimum consecutive working days exceed the maximum"]
  | .tooManyStaff =>
    ["too many staff members", "out of range integral type conversion attempted"]
  | .tooManyShifts => ["too many shifts", "out of range integral type conversion attempted"]
  | .shiftOutOfRange =>
    ["shift index out of range", "out of range integral type conversion attempted"]
  | .model e => [e.message]

end Roster

/-- The rules and wishes of a roster. -/
structure Roster where
  /-- Sizes and prices. -/
  params : Roster.Params
  /-- For each shift, the shifts that must not follow it on the next day. -/
  forbidden : List (List Nat)
  /-- For each member and each shift, how often the member may work the shift. -/
  maxShifts : List (List Nat)
  /-- For each member, the days that are off. -/
  daysOff : List (List Nat)
  /-- Wishes to work a shift. -/
  onRequests : List Roster.Request
  /-- Wishes not to work a shift. -/
  offRequests : List Roster.Request
  /-- For each day and each shift, the preferred number of members. -/
  cover : List (List Int)
deriving DecidableEq, Repr

end WeightedCsp

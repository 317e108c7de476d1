import WeightedCsp.Decimal

/-!
# Names of auxiliary variables

A formulation declares variables beside those of the model: an indicator for each value of each
variable, penalties of soft constraints, sums of penalties of one price, and the objectives.  All
their names begin with an underscore, which no name of a model does.
-/

namespace WeightedCsp.Names

/-- The indicator of `var = value`. -/
def indicator (var : String) (value : Int) : String := "_" ++ var ++ "__" ++ value.repr

/-- The penalty of a constraint. -/
def penalty (constraint : String) : String := "_P__" ++ constraint

/-- The part of the penalty of an equation that its left side is too small by. -/
def deficit (constraint : String) : String := "_P1__" ++ constraint

/-- The part of the penalty of an equation that its left side is too large by. -/
def surplus (constraint : String) : String := "_P2__" ++ constraint

/-- The objective: the weighted sum of all penalties. -/
def objective : String := "_P"

/-- The sum of the penalties of one price. -/
def tier (price : Nat) : String := "_P" ++ Decimal.padded 3 price

/-- The sum of the penalties of the highest price. -/
def heaviest : String := "_P1"

/-- The weighted sum of the penalties of all lower prices. -/
def lighter : String := "_P2"

/-- The sum of the penalties of one of the lower prices. -/
def lighterTier (price : Nat) : String := "_P2_" ++ Decimal.padded 3 price

end WeightedCsp.Names

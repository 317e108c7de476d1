import WeightedCsp.Comparator
import WeightedCsp.Variable

/-!
# Constraints

A constraint has a name, a weight and a body of one of four kinds.  A hard constraint has to hold;
a soft one may be violated at a price of its weight for every unit of violation.
-/

namespace WeightedCsp

/-- Hard, or soft with a price for each unit of violation. -/
inductive Weight where
  /-- The constraint has to hold. -/
  | hard
  /-- The constraint may be violated at this price. -/
  | soft (price : Nat)
deriving DecidableEq, Repr

namespace Weight

/-- The weight a number stands for: every negative number means hard. -/
def ofInt (w : Int) : Weight := if w < 0 then hard else soft w.toNat

/-- The number that stands for the weight: `-1` for hard. -/
def toInt : Weight → Int
  | hard => -1
  | soft w => w

/-- The constraint has to hold. -/
def isHard : Weight → Bool
  | hard => true
  | soft _ => false

/-- The weight as it stands in a listing. -/
def text : Weight → String
  | hard => "hard"
  | soft w => "w=" ++ w.repr

end Weight

/-- `coeff * var`. -/
structure LinearTerm where
  coeff : Int
  var : Variable
deriving DecidableEq

/-- `coeff` where the variable takes the value, and zero elsewhere. -/
structure IndicatorTerm where
  coeff : Int
  var : Variable
  value : Int
deriving DecidableEq

/-- The statement that a variable takes a value (`polarity` true) or does not. -/
structure Predicate where
  /-- The variable. -/
  var : Variable
  /-- The value that is asked about. -/
  value : Int
  /-- Whether the variable is said to take the value. -/
  polarity : Bool
deriving DecidableEq

/-- What a constraint demands. -/
inductive Body where
  /-- A weighted sum of variables compares with a constant. -/
  | linear (terms : List LinearTerm) (op : Comparator) (rhs : Int)
  /-- A weighted sum of indicators compares with a constant. -/
  | pseudoBoolean (terms : List IndicatorTerm) (op : Comparator) (rhs : Int)
  /-- Not all the predicates hold at once. -/
  | conflict (terms : List Predicate)
  /-- The variables take pairwise different values. -/
  | allDifferent (vars : List Variable)
deriving DecidableEq

/-- A named, weighted demand on variables. -/
structure Constraint where
  /-- The name, by which a model knows the constraint. -/
  name : String
  /-- Hard, or soft with a price. -/
  weight : Weight
  /-- What is demanded. -/
  body : Body
deriving DecidableEq

/-- The variables a body speaks of, in order and with repetitions. -/
def Body.vars : Body → List Variable
  | .linear terms _ _ => terms.map (·.var)
  | .pseudoBoolean terms _ _ => terms.map (·.var)
  | .conflict terms => terms.map (·.var)
  | .allDifferent vars => vars

/-- The number of terms or variables of a body. -/
def Body.size : Body → Nat
  | .linear terms _ _ => terms.length
  | .pseudoBoolean terms _ _ => terms.length
  | .conflict terms => terms.length
  | .allDifferent vars => vars.length

/-- Adds up ranges; `none` as soon as an end does not fit. -/
def addRanges? : Int × Int → List (Option (Int × Int)) → Option (Int × Int)
  | total, [] => some total
  | _, none :: _ => none
  | (lo, hi), some (a, b) :: rest =>
    match Word.add? lo a, Word.add? hi b with
    | some lo, some hi => addRanges? (lo, hi) rest
    | _, _ => none

/-- The range of `coeff * x` over the domain of `x`. -/
def LinearTerm.range? (t : LinearTerm) : Option (Int × Int) :=
  match Word.mul? t.coeff t.var.domain.lb, Word.mul? t.coeff t.var.domain.ub with
  | some a, some b => some (min a b, max a b)
  | _, _ => none

/-- The range of an indicator term. -/
def IndicatorTerm.range (t : IndicatorTerm) : Int × Int := (min t.coeff 0, max t.coeff 0)

/-- The range of a sum of linear terms over the domains. -/
def linearRange? (terms : List LinearTerm) : Option (Int × Int) :=
  addRanges? (0, 0) (terms.map (·.range?))

/-- The range of a sum of indicator terms. -/
def indicatorRange? (terms : List IndicatorTerm) : Option (Int × Int) :=
  addRanges? (0, 0) (terms.map fun t => some t.range)

/-- A range that may have failed to fit, with the ends of the machine range in its place. -/
def rangeOrAll (r : Option (Int × Int)) : Int × Int := r.getD (Word.least, Word.greatest)

/-- The range of the left side of a comparison. -/
def Body.lhsRange : Body → Option (Int × Int)
  | .linear terms _ _ => some (rangeOrAll (linearRange? terms))
  | .pseudoBoolean terms _ _ => some (rangeOrAll (indicatorRange? terms))
  | .conflict _ => none
  | .allDifferent _ => none

namespace Constraint

/-- The constraint has to hold. -/
def isHard (c : Constraint) : Bool := c.weight.isHard

/-- The constraint may be violated. -/
def isSoft (c : Constraint) : Bool := !c.weight.isHard

/-- The variables of the constraint, in order and with repetitions. -/
def vars (c : Constraint) : List Variable := c.body.vars

/-- The greatest amount by which a soft constraint can be violated; zero for a hard one, and
nothing for an all-different constraint, which has no penalty. -/
def penaltyBound? (c : Constraint) : Option Int :=
  match c.body with
  | .linear terms op rhs =>
    let (lo, hi) := rangeOrAll (linearRange? terms)
    some (if c.isHard then 0 else op.maxViolation rhs lo hi)
  | .pseudoBoolean terms op rhs =>
    let (lo, hi) := rangeOrAll (indicatorRange? terms)
    some (if c.isHard then 0 else op.maxViolation rhs lo hi)
  | .conflict _ => some (if c.isHard then 0 else 1)
  | .allDifferent _ => none

end Constraint

/-- A linear term as it stands in a listing. -/
def LinearTerm.text (t : LinearTerm) : String := t.coeff.repr ++ "*" ++ t.var.name

/-- An indicator term as it stands in a listing. -/
def IndicatorTerm.text (t : IndicatorTerm) : String :=
  t.coeff.repr ++ "*[" ++ t.var.name ++ "=" ++ t.value.repr ++ "]"

/-- A predicate as it stands in a listing. -/
def Predicate.text (t : Predicate) : String :=
  t.var.name ++ (if t.polarity then "=" else "!=") ++ t.value.repr

/-- A body as it stands in a listing. -/
def Body.text : Body → String
  | .linear terms op rhs =>
    " + ".intercalate (terms.map (·.text)) ++ " " ++ op.text ++ " " ++ rhs.repr
  | .pseudoBoolean terms op rhs =>
    " + ".intercalate (terms.map (·.text)) ++ " " ++ op.text ++ " " ++ rhs.repr
  | .conflict terms => "not(" ++ " and ".intercalate (terms.map (·.text)) ++ ")"
  | .allDifferent vars => "alldiff(" ++ ", ".intercalate (vars.map (·.name)) ++ ")"

/-- A constraint as it stands in a listing. -/
def Constraint.text (c : Constraint) : String :=
  c.name ++ " [" ++ c.weight.text ++ "]: " ++ c.body.text

end WeightedCsp

import WeightedCsp.Constraint.Basic

/-!
# Building constraints

Each kind of constraint is built from its parts and refused if a part is missing or wrong.  The
checks go in a fixed order: the name, the comparator, the constants, and last the arithmetic.  The
arithmetic check is what makes a built comparison safe: the range of its left side, every amount
by which it can be missed in either direction, and the weighted penalty fit a machine word.
-/

namespace WeightedCsp.Constraint

/-- The left side from `lo` to `hi`, the amounts by which it can miss `rhs` on both sides, and
their weighted maximum fit. -/
def arithmeticFits (weight : Weight) (rhs : Int) (range : Option (Int × Int)) : Bool :=
  (do
    let (lo, hi) ← range
    let below ← Comparator.gt.maxViolation? rhs lo hi
    let above ← Comparator.lt.maxViolation? rhs lo hi
    let _ ← Comparator.lt.violation? lo rhs
    let _ ← Comparator.gt.violation? hi rhs
    Word.mul? (max weight.toInt 0) (max below above)).isSome

/-- Refuses arithmetic that does not fit. -/
def checkArithmetic (name : String) (weight : Weight) (rhs : Int) (range : Option (Int × Int)) :
    Except ModelError Unit :=
  if arithmeticFits weight rhs range then .ok () else .error (.overflow name)

/-- Refuses a comparison without a comparator. -/
def checkComparator (name : String) : Option Comparator → Except ModelError Comparator
  | some op => .ok op
  | none => .error (.incompleteConstraint name)

/-- Refuses the first value that lies outside the domain of its variable. -/
def checkValues : List (Variable × Int) → Except ModelError Unit
  | [] => .ok ()
  | (x, v) :: rest =>
    if v ∈ x.domain then checkValues rest else .error (.valueNotInDomain x.name v)

/-- The constraint that a weighted sum of variables compares with `rhs`. -/
def linear (name : String) (weight : Weight) (terms : List LinearTerm) (op : Option Comparator)
    (rhs : Int) : Except ModelError Constraint := do
  Identifier.check name
  let op ← checkComparator name op
  checkArithmetic name weight rhs (linearRange? terms)
  return ⟨name, weight, .linear terms op rhs⟩

/-- The constraint that a weighted sum of indicators compares with `rhs`. -/
def pseudoBoolean (name : String) (weight : Weight) (terms : List IndicatorTerm)
    (op : Option Comparator) (rhs : Int) : Except ModelError Constraint := do
  Identifier.check name
  let op ← checkComparator name op
  checkValues (terms.map fun t => (t.var, t.value))
  checkArithmetic name weight rhs (indicatorRange? terms)
  return ⟨name, weight, .pseudoBoolean terms op rhs⟩

/-- The constraint that forbids the conjunction of the predicates. -/
def conflict (name : String) (weight : Weight) (terms : List Predicate) :
    Except ModelError Constraint := do
  Identifier.check name
  checkValues (terms.map fun t => (t.var, t.value))
  return ⟨name, weight, .conflict terms⟩

/-- The constraint that the variables, which share one domain, take different values. -/
def allDifferent (name : String) (weight : Weight) (vars : List Variable) :
    Except ModelError Constraint := do
  Identifier.check name
  match vars with
  | [] => return ⟨name, weight, .allDifferent vars⟩
  | x :: rest =>
    if rest.all fun y => x.domain = y.domain then return ⟨name, weight, .allDifferent vars⟩
    else throw (.domainMismatch name)

end WeightedCsp.Constraint

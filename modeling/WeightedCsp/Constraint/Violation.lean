import WeightedCsp.Constraint.Basic

/-!
# Violation of constraints under an assignment

An assignment is a look-up of values by variable name.  The violation of a comparison is the
amount by which it is missed, that of a conflict is one or zero, and that of an all-different
constraint is the number of pairs that clash.  `Body.Holds` says what a body demands without
arithmetic limits.
-/

namespace WeightedCsp

/-- The value of each variable that has one. -/
abbrev Assignment : Type := String → Option Int

/-- The value of a variable, which has to have one. -/
def Assignment.value (a : Assignment) (x : Variable) : Except ModelError Int :=
  match a x.name with
  | some v => .ok v
  | none => .error (.unassigned x.name)

/-- A number of a constraint that has to fit. -/
def orOverflow (name : String) : Option Int → Except ModelError Int
  | some v => .ok v
  | none => .error (.overflow name)

/-- The sum of linear terms, added from the left to `acc`. -/
def linearSum (name : String) (a : Assignment) : Int → List LinearTerm → Except ModelError Int
  | acc, [] => .ok acc
  | acc, t :: rest => do
    let v ← a.value t.var
    let acc ← orOverflow name (do Word.add? acc (← Word.mul? t.coeff v))
    linearSum name a acc rest

/-- The sum of indicator terms, added from the left to `acc`. -/
def indicatorSum (name : String) (a : Assignment) :
    Int → List IndicatorTerm → Except ModelError Int
  | acc, [] => .ok acc
  | acc, t :: rest => do
    let v ← a.value t.var
    if v = t.value then
      let acc ← orOverflow name (Word.add? acc t.coeff)
      indicatorSum name a acc rest
    else indicatorSum name a acc rest

/-- All predicates hold. -/
def allPredicates (a : Assignment) : List Predicate → Except ModelError Bool
  | [] => .ok true
  | t :: rest => do
    let v ← a.value t.var
    let others ← allPredicates a rest
    return decide (v = t.value) == t.polarity && others

/-- The number of pairs of equal values. -/
def clashes : List Int → Nat
  | [] => 0
  | v :: rest => rest.count v + clashes rest

/-- The violation of the constraint under an assignment. -/
def Constraint.violation (c : Constraint) (a : Assignment) : Except ModelError Int :=
  match c.body with
  | .linear terms op rhs => do
    let lhs ← linearSum c.name a 0 terms
    orOverflow c.name (op.violation? lhs rhs)
  | .pseudoBoolean terms op rhs => do
    let lhs ← indicatorSum c.name a 0 terms
    orOverflow c.name (op.violation? lhs rhs)
  | .conflict terms => do
    return if ← allPredicates a terms then 1 else 0
  | .allDifferent vars => do
    let values ← vars.mapM a.value
    return clashes values

/-! ### Meaning -/

/-- The predicate holds. -/
def Predicate.Holds (value : String → Int) (t : Predicate) : Prop :=
  (value t.var.name = t.value) ↔ t.polarity = true

/-- The sum of linear terms as a mathematical integer. -/
def linearTotal (value : String → Int) (terms : List LinearTerm) : Int :=
  terms.foldr (fun t n => t.coeff * value t.var.name + n) 0

/-- The sum of indicator terms as a mathematical integer. -/
def indicatorTotal (value : String → Int) (terms : List IndicatorTerm) : Int :=
  terms.foldr (fun t n => (if value t.var.name = t.value then t.coeff else 0) + n) 0

/-- What the body demands of the values. -/
def Body.Holds (value : String → Int) : Body → Prop
  | .linear terms op rhs => op.Holds (linearTotal value terms) rhs
  | .pseudoBoolean terms op rhs => op.Holds (indicatorTotal value terms) rhs
  | .conflict terms => ¬ ∀ t ∈ terms, t.Holds value
  | .allDifferent vars => vars.Pairwise fun x y => value x.name ≠ value y.name

end WeightedCsp

import WeightedCsp.Constraint.Build
import WeightedCsp.Constraint.Violation
import WeightedCsp.Places

/-!
# Models

A model is an append-only registry of variables and constraints.  Names are unique, and a
constraint is registered only if every variable it speaks of is registered with the same domain.
Everything is checked before anything is changed, so a refused
entry leaves the registry as it was.
-/

namespace WeightedCsp

/-- The violation of one constraint. -/
structure Violation where
  constraint : String
  weight : Weight
  amount : Int
deriving DecidableEq

/-- Variables and constraints in the order of registration, with tables of their places. -/
structure Model where
  /-- The variables. -/
  vars : List Variable
  /-- Where the variable of a name stands. -/
  varPlaces : Places
  /-- The constraints. -/
  constraints : List Constraint
  /-- Where the constraint of a name stands. -/
  constraintPlaces : Places
deriving DecidableEq

/-- A change of a model, which may be refused. -/
abbrev Registering : Type → Type := Step ModelError Model

/-- A group of soft constraints of one weight. -/
structure Tier where
  /-- The common price. -/
  price : Nat
  /-- The constraints in the order of the model. -/
  members : List Constraint

namespace Model

/-- The model without entries. -/
def empty : Model := ⟨[], [], [], []⟩

/-- The model with the given entries, whether they fit together or not. -/
def ofLists (xs : List Variable) (cs : List Constraint) : Model :=
  ⟨xs, .ofNames (xs.map (·.name)), cs, .ofNames (cs.map (·.name))⟩

/-- The variable of that name. -/
def lookupVariable (m : Model) (name : String) : Checked (Option Variable) :=
  m.varPlaces.find m.vars name

/-- The constraint of that name. -/
def lookupConstraint (m : Model) (name : String) : Checked (Option Constraint) :=
  m.constraintPlaces.find m.constraints name

/-- The model with one more variable at the end. -/
def withVariable (m : Model) (x : Variable) : Model :=
  { m with vars := m.vars ++ [x], varPlaces := (x.name, m.vars.length) :: m.varPlaces }

/-- The model with one more constraint at the end. -/
def withConstraint (m : Model) (c : Constraint) : Model :=
  { m with
    constraints := m.constraints ++ [c]
    constraintPlaces := (c.name, m.constraints.length) :: m.constraintPlaces }

/-- Registers a variable. -/
def addVariable (x : Variable) : Registering Unit := do
  if (← get).varPlaces.contains x.name then Step.fail (.duplicateVariable x.name)
  modify (·.withVariable x)

/-- Builds and registers a variable. -/
def newVariable (name : String) (domain : Domain) : Registering Variable := do
  let x ← Failure.ofExcept (Variable.new name domain)
  addVariable x
  return x

/-- Demands that variables of a constraint are registered with their domains. -/
def demandDeclared (constraint : String) : List Variable → Registering Unit
  | [] => return ()
  | x :: xs => do
    let known ← ((← get).lookupVariable x.name : Checked (Option Variable))
    if known ≠ some x then Step.fail (.undeclaredVariable constraint x.name)
    demandDeclared constraint xs

/-- Registers a constraint. -/
def addConstraint (c : Constraint) : Registering Unit := do
  if (← get).constraintPlaces.contains c.name then Step.fail (.duplicateConstraint c.name)
  demandDeclared c.name c.vars
  modify (·.withConstraint c)

/-- The constraints that have to hold. -/
def hardConstraints (m : Model) : List Constraint := m.constraints.filter (·.isHard)

/-- The constraints that may be violated. -/
def softConstraints (m : Model) : List Constraint := m.constraints.filter (·.isSoft)

end Model

namespace Tier

/-- Puts a constraint into the tier of its price, in a list of descending prices. -/
def insert (price : Nat) (c : Constraint) : List Tier → List Tier
  | [] => [⟨price, [c]⟩]
  | t :: rest =>
    if t.price = price then { t with members := t.members ++ [c] } :: rest
    else if t.price < price then ⟨price, [c]⟩ :: t :: rest
    else t :: insert price c rest

/-- The soft constraints among the given ones, grouped by price, the highest price first. -/
def ofConstraints (cs : List Constraint) : List Tier :=
  cs.foldl (fun tiers c =>
    match c.weight with
    | .hard => tiers
    | .soft w => insert w c tiers) []

end Tier

namespace Model

/-- The soft constraints grouped by price, the highest price first. -/
def tiers (m : Model) : List Tier := Tier.ofConstraints m.constraints

/-- The violations of all constraints, in order. -/
def evaluate (m : Model) (a : Assignment) : Except ModelError (List Violation) :=
  m.constraints.mapM fun c => do
    return ⟨c.name, c.weight, ← c.violation a⟩

/-- Adds the prices of violations to `acc` from the left; hard ones cost nothing. -/
def priceOf : Int → List Violation → Except ModelError Int
  | acc, [] => .ok acc
  | acc, v :: rest =>
    match v.weight with
    | .hard => priceOf acc rest
    | .soft w => do
      let acc ← orOverflow v.constraint (do Word.add? acc (← Word.mul? w v.amount))
      priceOf acc rest

/-- The number of violated hard constraints. -/
def hardCount (vs : List Violation) : Nat :=
  (vs.filter fun v => v.weight.isHard && decide (0 < v.amount)).length

/-- The weighted sum of the soft violations and the number of violated hard constraints. -/
def score (m : Model) (a : Assignment) : Except ModelError (Int × Nat) := do
  let vs ← m.evaluate a
  return (← priceOf 0 vs, hardCount vs)

end Model

end WeightedCsp

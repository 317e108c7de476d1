import WeightedCsp.Method.Optimizer

/-!
# The heaviest tier first

The first step minimizes the sum of the penalties of the highest price and binds it.  The second
step adds all other soft constraints and minimizes the weighted sum of their penalties.  The
variant with the first step alone stops there.
-/

namespace WeightedCsp.Optimizer

variable {σ : Type}

/-- Formulates variables and hard constraints; soft constraints come during the search. -/
def formulateHard (b : Backend σ) : Action σ Unit := do
  expect .start
  addVariables (← get).model.vars
  addConstraints (← get).model.hardConstraints
  enter b .formulated

/-- Minimizes an objective from a first solution and binds its value; false if the search is at an
end. -/
def minimizeStep (b : Backend σ) (name : String) : Action σ Bool := do
  match ← firstSolution b with
  | none => return false
  | some s => do
    let first ← valueOf s name
    record s
    let d ← descend b name first
    noteTimeout d
    bindValue name .le d.value
    return true

/-- Adds the lighter tiers, and gives their sums as summands of the second objective. -/
def addLighterTiers : List Nat → Action σ (List Summand)
  | [] => return []
  | price :: rest => do
    let name := Names.lighterTier price
    let ub ← addTier name price
    return ⟨price, name, ub⟩ :: (← addLighterTiers rest)

/-- The second step: all lighter tiers at their prices. -/
def searchLighter (b : Backend σ) (prices : List Nat) : Action σ Bool := do
  let parts ← addLighterTiers prices
  let exprs ← (Formulation.sumDefinition Names.lighter parts : Checked (List Expr))
  queue exprs
  minimizeStep b Names.lighter

/-- The search in two steps, or in the first of them. -/
def searchTwoStep (b : Backend σ) (secondStep : Bool) : Action σ Unit := do
  beginSearch b
  match (← get).model.tiers.map (·.price) with
  | [] => anySolution b
  | heavy :: light => do
    let _ ← addTier Names.heaviest heavy
    if ← minimizeStep b Names.heaviest then
      if secondStep then
        if ← searchLighter b light then finishDescents b
      else finishDescents b

end WeightedCsp.Optimizer

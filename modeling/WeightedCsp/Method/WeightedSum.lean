import WeightedCsp.Method.Optimizer

/-!
# Minimizing the weighted sum

Two strategies on the objective `_P`, the weighted sum of all penalties.  Linear descent asks for
one less than the best value until that is refused.  Bisection keeps the least value in an interval
`(lb, ub]` and halves it with every question.
-/

namespace WeightedCsp.Optimizer

variable {σ : Type}

/-- Formulates the whole model, with its objective if something is soft. -/
def formulateAll (b : Backend σ) : Action σ Unit := do
  expect .start
  addVariables (← get).model.vars
  addConstraints (← get).model.constraints
  let f := (← get).formulation
  if f.hasObjective then
    let exprs ← (formulating f.objective : Except (Failure MethodError) (List Expr))
    queue exprs
  enter b .formulated

/-- Linear descent on the objective. -/
def searchLinear (b : Backend σ) : Action σ Unit := do
  beginSearch b
  if (← get).formulation.hasObjective then
    match ← firstSolution b with
    | none => return ()
    | some s => do
      let first ← valueOf s Names.objective
      record s
      match ← descend b Names.objective first with
      | .optimal _ => enter b .optimal
      | .interrupted _ => enter b .timeout
  else anySolution b

/-- Halves the interval `(lb, ub]` of the least value for at most `fuel` questions. -/
def bisect (b : Backend σ) : Nat → Int → Int → Action σ Unit
  | 0, lb, ub => enter b (if ub - lb ≤ 1 then .optimal else .timeout)
  | fuel + 1, lb, ub => do
    let width ← (Word.sub ub lb : Checked Int)
    if width ≤ 1 then enter b .optimal
    else
      let mid := lb + width.tdiv 2
      assume b Names.objective .le mid
      match ← ask b (some mid) with
      | .sat s => do
        let ub ← valueOf s Names.objective
        bindValue Names.objective .le ub
        record s
        bisect b fuel lb ub
      | .unsat => do
        bindValue Names.objective .gt mid
        bisect b fuel mid ub
      | .interrupted => enter b .timeout

/-- Bisection on the objective. -/
def searchBinary (b : Backend σ) : Action σ Unit := do
  beginSearch b
  if (← get).formulation.hasObjective then
    match ← firstSolution b with
    | none => return ()
    | some s => do
      let first ← valueOf s Names.objective
      record s
      bisect b ((first + 1).toNat + (← get).spareTurns) (-1) first
  else anySolution b

end WeightedCsp.Optimizer

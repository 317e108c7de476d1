import WeightedCsp.Csp.Session
import WeightedCsp.Method.Phase
import WeightedCsp.Model

/-!
# Reports

A report gives the best assignment of a method with its violations, computed anew from the model.
If the assignment cannot be evaluated, the report holds the assignment alone.
-/

namespace WeightedCsp

/-- The summary of a method. -/
structure Report where
  /-- The name of the method. -/
  method : String
  /-- Where the method stands. -/
  status : Phase
  /-- The values of the variables of the model. -/
  assignment : List (String × Int)
  /-- The violations of the soft constraints, in the order of the model. -/
  violations : List Violation
  /-- The number of violated hard constraints. -/
  hardViolations : Nat
  /-- The total violation for each price, the highest price first. -/
  tiers : List (Nat × Int)
  /-- The weighted sum of the soft violations, if there is one that fits. -/
  objective : Option Int
  /-- The number of questions that were asked. -/
  solves : Nat
  /-- The time spent, in milliseconds. -/
  elapsed : Nat
deriving DecidableEq

namespace Report

/-- Adds an amount to the total of its price, in a list with descending prices. -/
def addToTier (price : Nat) (amount : Int) : List (Nat × Int) → Checked (List (Nat × Int))
  | [] => do return [(price, ← Word.add 0 amount)]
  | (p, t) :: rest =>
    if p = price then do return (p, ← Word.add t amount) :: rest
    else if p < price then do return (price, ← Word.add 0 amount) :: (p, t) :: rest
    else do return (p, t) :: (← addToTier price amount rest)

/-- The totals of soft violations by price. -/
def tierTotals : List (Nat × Int) → List Violation → Checked (List (Nat × Int))
  | totals, [] => .ok totals
  | totals, v :: rest =>
    match v.weight with
    | .hard => tierTotals totals rest
    | .soft price => do tierTotals (← addToTier price v.amount totals) rest

/-- The weighted sum of soft violations, added from the left to `acc`; nothing if it does not
fit. -/
def objective? : Int → List Violation → Option Int
  | acc, [] => some acc
  | acc, v :: rest => do
    let acc ← match v.weight with
      | .hard => some acc
      | .soft price => do Word.add? acc (← Word.mul? price v.amount)
    objective? acc rest

/-- The values of the variables of a model that have one. -/
def assignmentOf (m : Model) (s : Solution) : List (String × Int) :=
  m.vars.filterMap fun x => (s.get? x.name).map fun v => (x.name, v)

/-- The report on a solution, or on none. -/
def new (method : String) (m : Model) (status : Phase) (best : Option Solution) (solves : Nat)
    (elapsed : Nat) : Checked Report := do
  let bare : Report := ⟨method, status, [], [], 0, [], none, solves, elapsed⟩
  match best with
  | none => return bare
  | some s => do
    let bare := { bare with assignment := assignmentOf m s }
    match m.evaluate s.get? with
    | .error _ => return bare
    | .ok violations => do
      let totals ← tierTotals [] violations
      return { bare with
        violations := violations.filter fun v => !v.weight.isHard
        hardViolations := Model.hardCount violations
        tiers := totals
        objective := objective? 0 violations }

/-- A line of text. -/
def line (s : String) : String := s ++ "\n"

/-- The report as lines of text. -/
def text (r : Report) : String :=
  line ("method: " ++ r.method) ++ line ("status: " ++ r.status.text) ++
    match r.objective with
    | none => line "no solution found"
    | some objective =>
      line "solution:" ++
      String.join (r.assignment.map fun (x, v) => line ("  " ++ x ++ " = " ++ v.repr)) ++
      line "penalties:" ++
      String.join (r.violations.map fun v =>
        line ("  " ++ v.constraint ++ " (w=" ++ v.weight.toInt.repr ++ ") = " ++ v.amount.repr)) ++
      line "tiers:" ++
      String.join (r.tiers.map fun (p, t) => line ("  weight " ++ p.repr ++ ": " ++ t.repr)) ++
      (if r.hardViolations = 0 then ""
        else line ("violated hard constraints: " ++ r.hardViolations.repr)) ++
      line ("objective: " ++ objective.repr) ++
      line ("solve count: " ++ r.solves.repr) ++
      line ("elapsed: " ++ r.elapsed.repr ++ " ms")

end Report

end WeightedCsp

import WeightedCsp.Method.Tiers

/-!
# Local search alone

Runs a local search once on the instance of the model and takes over its best solution.  Nothing
is proven, so the end is feasible, or infeasible if hard constraints stay violated.
-/

namespace WeightedCsp

/-- A model on its way through one local search. -/
structure LocalOnly where
  /-- The model. -/
  model : Model
  /-- The options. -/
  options : MethodOptions
  /-- Where the method stands. -/
  phase : Phase
  /-- The instance of the model, once it is formulated. -/
  problem : Option Instance
  /-- The best solution. -/
  best : Option Solution
  /-- What was asked of a local search program, once it is asked. -/
  asked : Option LocalSearch.Request

namespace LocalOnly

/-- A step of a local search. -/
abbrev Action : Type → Type := Step MethodError LocalOnly

/-- The method before its first step. -/
def new (m : Model) (options : MethodOptions) : LocalOnly := ⟨m, options, .start, none, none, none⟩

/-- Demands that the method stands at a phase. -/
def expect (expected : Phase) : Action Unit := fun o =>
  if o.phase = expected then .ok () o else .error (.error (.wrongPhase expected o.phase)) o

/-- Moves on to a phase. -/
def enter (phase : Phase) : Action Unit := modify fun o => { o with phase := phase }

/-- Writes the instance of the model. -/
def formulate : Action Unit := do
  expect .start
  let i ← (Optimizer.instanceOf (← get).model : Except (Failure MethodError) Instance)
  modify fun o => { o with problem := some i }
  enter .formulated

/-- Local search needs no encoding. -/
def encode : Action Unit := do
  expect .formulated
  enter .encoded

/-- The values of labelled variables, in the order of names. -/
def valuesOf : NameMap String → Except MethodError (List (String × Int))
  | [] => .ok []
  | (x, label) :: rest =>
    match Decimal.readInt label with
    | .error cause => .error (.label label x cause)
    | .ok v => do return (x, v) :: (← valuesOf rest)

/-- Runs the local search and takes over its best solution. -/
def search (run : LocalSearch.Runner) : Action Unit := do
  expect .encoded
  let o ← get
  enter .searching
  match o.options.localSearch.request (o.problem.getD .empty) with
  | .error e => Step.fail (.localSearch e)
  | .ok q => do
    modify fun o => { o with asked := some q }
    match q.result (run q) with
    | .error e => Step.fail (.localSearch e)
    | .ok (log, _) => do
      let values ← (Failure.ofExcept (valuesOf log.solution) :
        Except (Failure MethodError) (List (String × Int)))
      modify fun o => { o with best := some (NameMap.ofList values) }
      enter (if 0 < log.hardPenalty then .infeasible else .feasible)

/-- The report on the best solution. -/
def report (o : LocalOnly) : Checked Report :=
  Report.new "local-search" o.model o.phase o.best (if o.best.isSome then 1 else 0) 0

end LocalOnly

end WeightedCsp

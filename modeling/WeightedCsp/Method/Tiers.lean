import WeightedCsp.Method.TwoStep

/-!
# Tier by tier

The tiers are minimized one after the other, the highest price first; the sum of each is fixed at
its least value before the next tier is added.  The first question may start warm: it assumes
values for variables and a bound for the first tier, and is asked again without them if that is
refused.  A warm start comes from the log of a local search.
-/

namespace WeightedCsp

/-- Assumptions for the first question. -/
structure WarmStart where
  /-- Values of variables. -/
  pins : List (String × Int)
  /-- A bound for the sum of the penalties of the highest price. -/
  heavyBound : Int
deriving DecidableEq, Repr

namespace WarmStart

/-- The values that a log gives to the variables of a model. -/
def pinsOf (log : SolverLog) : List Variable → Except MethodError (List (String × Int))
  | [] => .ok []
  | x :: xs =>
    match log.solution.get? x.name with
    | none => pinsOf log xs
    | some label =>
      match Decimal.readInt label with
      | .error cause => .error (.label label x.name cause)
      | .ok v => do return (x.name, v) :: (← pinsOf log xs)

/-- The amounts of violated constraints of one price. -/
def amountsOf (m : Model) (price : Nat) : NameMap Int → Checked (List Int)
  | [] => return []
  | (name, amount) :: rest => do
    let c ← m.lookupConstraint name
    let others ← amountsOf m price rest
    return if c.any (·.weight = .soft price) then amount :: others else others

/-- The warm start that a log gives; none if hard constraints are violated, or nothing is soft. -/
def ofLog (m : Model) (log : SolverLog) : Except (Failure MethodError) (Option WarmStart) := do
  if 0 < log.hardPenalty then return none
  match m.tiers with
  | [] => return none
  | heavy :: _ => do
    let bound ← (do Word.sum (← amountsOf m heavy.price log.violated) : Checked Int)
    let pins ← Failure.ofExcept (pinsOf log m.vars)
    return some ⟨pins, bound⟩

end WarmStart

namespace Optimizer

variable {σ : Type}

/-- Assumes values of variables. -/
def assumePins (b : Backend σ) : List (String × Int) → Action σ Unit
  | [] => return ()
  | (x, v) :: rest => do
    assume b x .eq v
    assumePins b rest

/-- Asks with a warm start, and again without it if that is refused. -/
def askWarm (b : Backend σ) (name : String) (warm : WarmStart) : Action σ Outcome := do
  assumePins b warm.pins
  assume b name .le warm.heavyBound
  match ← ask b none with
  | .unsat => ask b none
  | outcome => return outcome

/-- The first question of a tier. -/
def askTier (b : Backend σ) (name : String) : Option WarmStart → Action σ Outcome
  | some warm => askWarm b name warm
  | none => ask b none

/-- Minimizes the tiers of the given prices; `first` marks the first tier. -/
def minimizeTiers (b : Backend σ) : Bool → Option WarmStart → List Nat → Action σ Unit
  | _, _, [] => finishDescents b
  | first, warm, price :: rest => do
    let name := Names.tier price
    let _ ← addTier name price
    match ← askTier b name warm with
    | .unsat => if first then enter b .infeasible else Step.fail (.stuckTier price)
    | .interrupted => enter b .timeout
    | .sat s => do
      let start ← valueOf s name
      record s
      let d ← descend b name start
      noteTimeout d
      bindValue name .eq d.value
      minimizeTiers b false none rest

/-- Minimizes all tiers, with a warm start or without. -/
def optimizeTiers (b : Backend σ) (warm : Option WarmStart) : Action σ Unit := do
  match (← get).model.tiers.map (·.price) with
  | [] => anySolution b
  | prices => minimizeTiers b true warm prices

/-- The search tier by tier. -/
def searchIncremental (b : Backend σ) : Action σ Unit := do
  beginSearch b
  optimizeTiers b none

/-- The instance of the model. -/
def instanceOf (m : Model) : Except (Failure MethodError) Instance :=
  match Instance.Scribe.writeModel m .start with
  | .ok i _ => .ok i
  | .error e _ => .error (e.map .scribe)

/-- What a warm start asks of a local search program: the whole model, in the time for a warm
start. -/
def warmStartRequest (o : Optimizer σ) : Except (Failure MethodError) LocalSearch.Request := do
  let options := { o.options.localSearch with timeout := o.options.warmStartTimeout }
  let i ← instanceOf o.model
  match options.request i with
  | .ok q => return q
  | .error e => throw (.error (.localSearch e))

/-- The log of a local search on the whole model. -/
def localLog (run : LocalSearch.Runner) : Action σ SolverLog := do
  let q ← (warmStartRequest (← get) : Except (Failure MethodError) LocalSearch.Request)
  modify fun o => { o with asked := some q }
  match q.result (run q) with
  | .ok (log, _) => return log
  | .error e => Step.fail (.localSearch e)

/-- The search tier by tier from a warm start. -/
def searchHybrid (b : Backend σ) (run : LocalSearch.Runner) : Action σ Unit := do
  beginSearch b
  let log ← localLog run
  let warm ← (WarmStart.ofLog (← get).model log : Except (Failure MethodError) (Option WarmStart))
  optimizeTiers b warm

end Optimizer

end WeightedCsp

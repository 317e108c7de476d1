import WeightedCsp.Method.LocalOnly
import WeightedCsp.Method.WeightedSum

/-!
# Strategies

The strategies by name, and the way through their steps: formulate, encode, search, report.
-/

namespace WeightedCsp

/-- The strategies on a satisfiability backend. -/
inductive Strategy where
  /-- Linear descent on the weighted sum. -/
  | linear
  /-- Bisection on the weighted sum. -/
  | binary
  /-- The heaviest tier alone. -/
  | firstStep
  /-- The heaviest tier, then the weighted sum of the others. -/
  | twoStep
  /-- Tier by tier. -/
  | incremental
  /-- Tier by tier from a warm start. -/
  | hybrid
deriving DecidableEq, Repr

namespace Strategy

/-- The name of a strategy. -/
def name : Strategy → String
  | linear => "linear"
  | binary => "binary"
  | firstStep => "first-step"
  | twoStep => "two-step"
  | incremental => "incremental"
  | hybrid => "hybrid"

/-- All strategies. -/
def all : List Strategy := [linear, binary, firstStep, twoStep, incremental, hybrid]

variable {σ : Type}

/-- Queues what is known of the model before the search. -/
def formulate (b : Backend σ) : Strategy → Optimizer.Action σ Unit
  | linear | binary => Optimizer.formulateAll b
  | firstStep | twoStep | incremental | hybrid => Optimizer.formulateHard b

/-- Searches for the best assignment. -/
def search (b : Backend σ) (run : LocalSearch.Runner) : Strategy → Optimizer.Action σ Unit
  | linear => Optimizer.searchLinear b
  | binary => Optimizer.searchBinary b
  | firstStep => Optimizer.searchTwoStep b false
  | twoStep => Optimizer.searchTwoStep b true
  | incremental => Optimizer.searchIncremental b
  | hybrid => Optimizer.searchHybrid b run

/-- All steps in order. -/
def complete (b : Backend σ) (run : LocalSearch.Runner) (strategy : Strategy) :
    Optimizer.Action σ Report := do
  strategy.formulate b
  Optimizer.encode b
  strategy.search b run
  ((← get).report b strategy.name : Checked Report)

end Strategy

/-- All steps of a local search in order. -/
def LocalOnly.complete (run : LocalSearch.Runner) : LocalOnly.Action Report := do
  formulate
  encode
  search run
  ((← get).report : Checked Report)

end WeightedCsp

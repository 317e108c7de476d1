/-!
# The life of a method

A method goes from its start through formulating, encoding and searching to one of four ends.
-/

namespace WeightedCsp

/-- Where a method stands. -/
inductive Phase where
  /-- Nothing is done yet. -/
  | start
  /-- Declarations and constraints are queued. -/
  | formulated
  /-- What was queued is compiled. -/
  | encoded
  /-- The search is on. -/
  | searching
  /-- The best assignment is proven to be optimal. -/
  | optimal
  /-- There is an assignment, without a proof that it is optimal. -/
  | feasible
  /-- No assignment satisfies the hard constraints. -/
  | infeasible
  /-- A limit of time stopped the search. -/
  | timeout
deriving DecidableEq, Repr

namespace Phase

/-- The phase as a word. -/
def text : Phase → String
  | start => "INIT"
  | formulated => "FORMULATED"
  | encoded => "ENCODED"
  | searching => "SEARCHING"
  | optimal => "OPTIMAL"
  | feasible => "FEASIBLE"
  | infeasible => "INFEASIBLE"
  | timeout => "TIMEOUT"

/-- The method is at an end. -/
def isFinal : Phase → Bool
  | optimal | feasible | infeasible | timeout => true
  | start | formulated | encoded | searching => false

/-- All phases in order. -/
def all : List Phase :=
  [start, formulated, encoded, searching, optimal, feasible, infeasible, timeout]

end Phase

end WeightedCsp

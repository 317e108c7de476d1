import WeightedCsp.Binary
import WeightedCsp.Sat.Backend
import WeightedCsp.Sat.Search

/-!
# The built-in backend

Searches for a model at every question and keeps what it has learnt for the next.  It prefers true,
which for the literals of an order encoding means small values.  It gives the values of its last
model until a clause is added, and it counts what it is given and what it answers.  The mean length
of the clauses is a running mean in the format of 32 bits, rounded after every operation.
-/

namespace WeightedCsp.Sat

/-- What a kernel can be asked about. -/
inductive KernelState where
  /-- Clauses are being added. -/
  | input
  /-- The last answer came with a model. -/
  | sat
  /-- The last answer was that there is no model. -/
  | unsat
deriving DecidableEq, Repr

/-- The state as a word. -/
def KernelState.text : KernelState → String
  | .input => "Input"
  | .sat => "Sat"
  | .unsat => "Unsat"

/-- The clauses with what was learnt from them, the last model and counters. -/
structure Kernel where
  /-- The search, at its bottom level. -/
  search : Search
  /-- The lengths of the clauses received, in order. -/
  lengths : Array Nat
  /-- What the kernel can be asked about. -/
  state : KernelState
  /-- The values of the last model. -/
  model : Nat → Ternary
  /-- The number of questions answered with a model. -/
  satCount : Nat
  /-- The number of questions answered with the absence of one. -/
  unsatCount : Nat
  /-- The number of questions given up. -/
  stoppedCount : Nat

namespace Kernel

/-- The name under which the kernel answers. -/
def signature : String := "BatSat 0.6.0"

/-- The kernel without clauses. -/
def start : Kernel where
  search := .empty
  lengths := #[]
  state := .input
  model _ := .dontCare
  satCount := 0
  unsatCount := 0
  stoppedCount := 0

/-- Receives a clause. -/
def add (k : Kernel) (c : Clause) : Kernel :=
  { k with
    search := k.search.receive c
    lengths := k.lengths.push c.length
    state := .input }

/-- The values that a search found for the variables below `n`. -/
def modelOf (n : Nat) (value : Array UInt8) (x : Nat) : Ternary :=
  if x < n then (if value.getD (2 * x) 0 = 1 then .true else .false) else .dontCare

/-- Answers under assumptions. -/
def solve (k : Kernel) (assumptions : List Lit) : Answer × Kernel :=
  match k.search.ask true assumptions with
  | (.model value, s) =>
    let model := modelOf s.level.size value
    (.sat model,
      { k with search := s, state := .sat, model := model, satCount := k.satCount + 1 })
  | (.unsat, s) => (.unsat, { k with search := s, state := .unsat, unsatCount := k.unsatCount + 1 })
  | (.gaveUp, s) =>
    (.interrupted, { k with search := s, state := .input, stoppedCount := k.stoppedCount + 1 })

/-- The mean of `n` lengths with one more length taken in. -/
def nextMean (mean : Binary.Number) (n length : Nat) : Binary.Number :=
  let f := Binary.single
  f.div (f.add (f.mul mean (f.ofNat n)) (f.ofNat length)) (f.ofNat (n + 1))

/-- The mean length of the clauses, taken in one after the other. -/
def meanLength (k : Kernel) : Binary.Number :=
  (k.lengths.foldl (fun (n, mean) length => (n + 1, nextMean mean n length))
    (0, Binary.single.ofNat 0)).2

/-- The value of a literal in the last model, which is there only in the state `sat`. -/
def value (k : Kernel) (l : Lit) : Except String Ternary :=
  if k.state = .sat then .ok (litValue k.model l)
  else .error ("no model available in state " ++ k.state.text)

/-- The number of variables, one in reserve counted, once there is any. -/
def varCount (k : Kernel) : Nat :=
  if k.search.level.size = 0 then 0 else k.search.level.size + 1

/-- The kernel as a backend.  It keeps no time. -/
def backend : Backend Kernel where
  add k c := (.ok (), k.add c)
  solve k assumptions _ :=
    let (answer, k) := k.solve assumptions
    (.ok answer, k)
  elapsed _ := 0

end Kernel

end WeightedCsp.Sat

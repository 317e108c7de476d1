import Std.Data.TreeMap
import WeightedCsp.Literal
import WeightedCsp.Word

/-!
# Generalized totalizer

Bounds a sum of weighted literals from above.  The inputs that are not heavier than the bound are
put at the leaves of a balanced binary tree.  A node offers, for every sum `s` its inputs can reach,
an output literal that is implied once the sum reaches `s`; sums above the bound are all counted
as `bound + 1`, which keeps the number of outputs small.  Forbidding the outputs above the bound at
the root, and every input heavier than the bound, enforces the bound.
-/

namespace WeightedCsp

/-- Why an encoding cannot be given. -/
inductive EncodingError where
  /-- The encoding was not built for this bound. -/
  | notEncoded
  /-- A weight or bound leaves the machine range. -/
  | overflow
deriving DecidableEq, Repr

/-- The wording of an encoding error. -/
def EncodingError.message : EncodingError → String
  | .notEncoded => "encoding not built for the requested bound"
  | .overflow => "weight or bound out of range"

/-- A literal with a weight. -/
abbrev WeightedLit : Type := Lit × Nat

/-- Sums with the literals that they imply, in ascending order of sums. -/
abbrev Outputs : Type := List (Nat × Lit)

namespace Totalizer

/-- An adder tree with weighted literals at its leaves. -/
inductive Tree where
  | leaf (l : Lit) (weight : Nat)
  | node (left right : Tree)

/-- The balanced tree over the given inputs: the first half to the left, and of an odd number of
inputs the smaller part. -/
def Tree.build (inputs : List WeightedLit) (nonempty : inputs ≠ []) : Tree :=
  if _ : inputs.length < 2 then .leaf (inputs.head nonempty).1 (inputs.head nonempty).2
  else
    .node
      (build (inputs.take (inputs.length / 2)) (by
        rw [← List.length_pos_iff, List.length_take]; omega))
      (build (inputs.drop (inputs.length / 2)) (by
        rw [← List.length_pos_iff, List.length_drop]; omega))
termination_by inputs.length
decreasing_by
  · rw [List.length_take]; omega
  · rw [List.length_drop]; omega

/-- The outputs of a node while they are being made. -/
abbrev Sums : Type := Std.TreeMap Nat Lit

variable {ε : Type}

/-- The literal of a sum, fresh if the node does not have it yet. -/
def output (sums : Sums) (sum : Nat) : Encoder ε (Lit × Sums) :=
  match sums[sum]? with
  | some l => return (l, sums)
  | none => do
    let l ← Encoder.newLit
    return (l, sums.insert sum l)

/-- Every output of a part is an output of the whole. -/
def passOn (cap : Nat) : Sums → Outputs → Encoder ε Sums
  | sums, [] => return sums
  | sums, (sum, l) :: rest => do
    let (o, sums) ← output sums (min sum cap)
    Encoder.addClause [l.not, o]
    passOn cap sums rest

/-- An output of the left part and each output of the right part imply their sum. -/
def addTo (cap sum : Nat) (l : Lit) : Sums → Outputs → Encoder ε Sums
  | sums, [] => return sums
  | sums, (sum', r) :: rest => do
    let total ← (Word.addSize sum sum' : Checked Nat)
    let (o, sums) ← output sums (min total cap)
    Encoder.addClause [l.not, r.not, o]
    addTo cap sum l sums rest

/-- Every pair of outputs of the two parts implies its sum. -/
def addPairs (cap : Nat) (right : Outputs) : Sums → Outputs → Encoder ε Sums
  | sums, [] => return sums
  | sums, (sum, l) :: rest => do
    let sums ← addTo cap sum l sums right
    addPairs cap right sums rest

/-- Encodes a tree, left part first, and gives its outputs with all sums cut off at `cap`. -/
def Tree.encode (cap : Nat) : Tree → Encoder ε Outputs
  | .leaf l w => return [(min w cap, l)]
  | .node left right => do
    let ls ← left.encode cap
    let rs ← right.encode cap
    let sums ← passOn cap ∅ (ls ++ rs)
    let sums ← addPairs cap rs sums ls
    return sums.toList

end Totalizer

/-- A totalizer with what it has been encoded for. -/
structure Totalizer where
  /-- The inputs. -/
  inputs : List WeightedLit
  /-- The bound of the latest encoding. -/
  bound : Option Nat
  /-- The outputs at the root of the latest encoding. -/
  outputs : Outputs
  /-- The number of variables that all encodings have used. -/
  varCount : Nat
  /-- The number of clauses that all encodings have made. -/
  clauseCount : Nat

namespace Totalizer

/-- The totalizer over the given inputs, not encoded yet. -/
def ofInputs (inputs : List WeightedLit) : Totalizer := ⟨inputs, none, [], 0, 0⟩

/-- The sum of all weights. -/
def weightSum (t : Totalizer) : Checked Nat := Word.sumSize (t.inputs.map (·.2))

/-- The inputs of the tree: those not heavier than the bound, lighter ones first. -/
def treeInputs (bound : Nat) (inputs : List WeightedLit) : List WeightedLit :=
  (inputs.filter fun i => i.2 ≤ bound).mergeSort fun a b => a.2 ≤ b.2

variable {ε : Type}

/-- Encodes the tree over the given inputs. -/
def encodeInputs (bound : Nat) (inputs : List WeightedLit) : Encoder ε Outputs :=
  if h : inputs = [] then return []
  else do
    let cap ← (Word.addSize bound 1 : Checked Nat)
    (Tree.build inputs h).encode cap

/-- Builds the encoding for an upper bound, unless it is the bound of the latest encoding. -/
def encode (t : Totalizer) (bound : Nat) : Encoder ε Totalizer :=
  if t.bound = some bound then return t
  else do
    let varsBefore := (← get).next
    let clausesBefore := (← get).clauses.size
    let outputs ← encodeInputs bound (treeInputs bound t.inputs)
    let varsAfter := (← get).next
    let clausesAfter := (← get).clauses.size
    return { t with
      bound := some bound
      outputs := outputs
      varCount := t.varCount + (varsAfter - varsBefore)
      clauseCount := t.clauseCount + (clausesAfter - clausesBefore) }

/-- The literals that enforce the bound the totalizer is encoded for. -/
def enforce (t : Totalizer) (bound : Nat) : Except EncodingError (List Lit) :=
  if t.bound = some bound then
    .ok ((t.inputs.filter fun i => bound < i.2).map (·.1.not) ++
      (t.outputs.filter fun o => bound < o.1).map (·.2.not))
  else .error .notEncoded

end Totalizer

end WeightedCsp

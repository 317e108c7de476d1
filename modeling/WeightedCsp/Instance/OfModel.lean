import WeightedCsp.Decimal
import WeightedCsp.Instance.Basic
import WeightedCsp.Model

/-!
# Instances of models

Values become decimal labels.  A term `c·x` of a linear constraint becomes a term `c·v` for each
value `v` of `x`; strict comparisons become weak ones with a neighbouring constant; a conflict of
`n` predicates, `k` of them negated, becomes a sum of at most `n - 1 - k`.

A scribe remembers the entities it has written, so that a name cannot stand for two of them, and
counts the gates it has built.
-/

namespace WeightedCsp.Instance

/-- Why an entity cannot be written into an instance. -/
inductive ScribeError where
  /-- Another entity of that name was written before. -/
  | duplicateDeclaration (name : String)
  /-- The instance refuses the entry. -/
  | refused (e : InstanceError)
deriving DecidableEq, Repr

/-- The wording of a scribe's error. -/
def ScribeError.message : ScribeError → String
  | .duplicateDeclaration name => s!"duplicate declaration of `{name}`"
  | .refused e => e.message

/-- What a scribe remembers. -/
structure Scribe where
  vars : List Variable
  constraints : List Constraint
  gates : Nat

/-- A step of a scribe. -/
abbrev Writing : Type → Type := Step ScribeError Scribe

namespace Scribe

/-- A scribe that has written nothing. -/
def start : Scribe := ⟨[], [], 0⟩

/-- The variable with its values as labels. -/
def varOf (x : Variable) : Var := ⟨x.name, x.domain.values.map Int.repr⟩

/-- A comparison as a relation with its constant. -/
def weaken (op : Comparator) (rhs : Int) : Checked (Relation × Int) :=
  match op with
  | .eq => return (.eq, rhs)
  | .le => return (.le, rhs)
  | .lt => do return (.le, ← Word.sub rhs 1)
  | .ge => return (.ge, rhs)
  | .gt => do return (.ge, ← Word.add rhs 1)

/-- A linear term as one term for each value. -/
def spread (t : LinearTerm) : Checked (List Term) :=
  t.var.domain.values.mapM fun v => do return ⟨← Word.mul t.coeff v, t.var.name, v.repr⟩

/-- The demand of a body. -/
def demandOf : Body → Checked Demand
  | .linear terms op rhs => do
    let (rel, rhs) ← weaken op rhs
    return .linear (← terms.mapM spread).flatten rel rhs
  | .pseudoBoolean terms op rhs => do
    let (rel, rhs) ← weaken op rhs
    return .linear (terms.map fun t => ⟨t.coeff, t.var.name, t.value.repr⟩) rel rhs
  | .conflict terms => do
    let negative := (terms.filter fun t => !t.polarity).length
    let rhs ← Word.sub (← Word.sub terms.length 1) negative
    return .linear
      (terms.map fun t => ⟨if t.polarity then 1 else -1, t.var.name, t.value.repr⟩) .le rhs
  | .allDifferent vars => return .allDifferent (vars.map (·.name))

/-- The constraint of an instance that stands for a constraint of a model. -/
def conOf (c : Constraint) : Checked Con := do
  return ⟨c.name, .ofModel c.weight.toInt, ← demandOf c.body⟩

/-- Writes a variable. -/
def writeVariable (x : Variable) : Writing Var := fun s =>
  match s.vars.find? (·.name = x.name) with
  | some y => if y = x then .ok (varOf x) s else .error (.error (.duplicateDeclaration x.name)) s
  | none => .ok (varOf x) { s with vars := s.vars ++ [x] }

/-- Writes variables one after the other. -/
def writeVariables : List Variable → Writing Unit
  | [] => return ()
  | x :: xs => do
    let _ ← writeVariable x
    writeVariables xs

/-- Writes a constraint, and the variables it speaks of on the way. -/
def writeConstraint (c : Constraint) : Writing Con := do
  match (← get).constraints.find? (·.name = c.name) with
  | some d =>
    if d = c then (conOf c : Checked Con) else Step.fail (.duplicateDeclaration c.name)
  | none => do
    writeVariables c.vars
    let con ← (conOf c : Checked Con)
    modify fun s => { s with constraints := s.constraints ++ [c] }
    return con

/-- The instance with an entry that it may refuse. -/
def entering (x : Entering Unit) (i : Instance) : Except (Failure ScribeError) Instance :=
  (x.mapError .refused).build i

/-- Writes variables into an instance. -/
def enterVariables : Instance → List Variable → Writing Instance
  | i, [] => return i
  | i, x :: xs => do
    let v ← writeVariable x
    let i ← entering (addVar v) i
    enterVariables i xs

/-- Writes constraints into an instance. -/
def enterConstraints : Instance → List Constraint → Writing Instance
  | i, [] => return i
  | i, c :: cs => do
    let k ← writeConstraint c
    let i ← entering (addCon k) i
    enterConstraints i cs

/-- The instance of a model: variables first, both in order. -/
def writeModel (m : Model) : Writing Instance := do
  let i ← enterVariables .empty m.vars
  enterConstraints i m.constraints

/-! ### Gates -/

/-- Makes an entry in the instance at hand. -/
def put (x : Entering Unit) : Step ScribeError (Scribe × Instance) Unit := fun (s, i) =>
  match x i with
  | .ok _ i => .ok () (s, i)
  | .error e i => .error (e.map .refused) (s, i)

/-- The number of the next gate. -/
def nextGate : Step ScribeError (Scribe × Instance) Nat := fun (s, i) =>
  .ok s.gates ({ s with gates := s.gates + 1 }, i)

/-- Adds a fresh variable that is `1` exactly when all the predicates hold.  A predicate is a term
with coefficient one, or a negated one with coefficient minus one; `offset` is the number of the
latter.  With `n` terms, `Σ - n·t(1) ≤ n - 1 - offset` makes the gate `1` when all hold, and
`Σ + n·t(0) ≥ n - offset` makes all hold when the gate is `1`. -/
def andGate (terms : List Term) (offset : Int) : Step ScribeError (Scribe × Instance) String := do
  let number ← nextGate
  let id := Decimal.padded 4 number
  let name := "temp" ++ id
  let n : Int := terms.length
  put (addVar ⟨name, ["0", "1"]⟩)
  let upper ← (do Word.sub (← Word.sub n 1) offset : Checked Int)
  put (addCon ⟨"AND_UB_" ++ id, .hard, .linear (terms ++ [⟨-n, name, "1"⟩]) .le upper⟩)
  let lower ← (Word.sub n offset : Checked Int)
  put (addCon ⟨"AND_LB_" ++ id, .hard, .linear (terms ++ [⟨n, name, "0"⟩]) .ge lower⟩)
  return name

end Scribe

end WeightedCsp.Instance

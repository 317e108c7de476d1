import WeightedCsp.Csp.Expr
import WeightedCsp.Formulation.Names
import WeightedCsp.Model

/-!
# Formulating models as expressions

A variable of the model becomes a declaration with an indicator for each of its values, tied to
the variable by implications in both directions.  A hard constraint becomes an expression over
variables and indicators.  A soft constraint is relaxed by a penalty variable that ranges up to
the greatest possible violation; an equation has two of them, one for each side, and their sum.
The objective sums the penalties, first those of one price and then the sums with their prices.

What is said for an entity depends on the entity alone.  A formulation remembers which entities it
has seen, so that a name cannot stand for two of them, and in which order penalties came up.
-/

namespace WeightedCsp

/-- Why an entity cannot be formulated. -/
inductive FormulationError where
  /-- Another entity of that name was formulated before. -/
  | duplicateDeclaration (name : String)
  /-- A constraint speaks of a variable that was not formulated before. -/
  | undeclaredVariable (constraint var : String)
  /-- There is no expression for this kind of constraint. -/
  | unsupported (constraint reason : String)
  /-- Nothing is to be minimized. -/
  | noObjective
  /-- The constraint has no penalty. -/
  | noPenalty (constraint : String)
deriving DecidableEq, Repr

/-- The wording of a formulation error. -/
def FormulationError.message : FormulationError → String
  | .duplicateDeclaration name => s!"duplicate declaration of `{name}`"
  | .undeclaredVariable constraint var =>
    s!"constraint `{constraint}` references undeclared variable `{var}`"
  | .unsupported constraint reason => s!"unsupported constraint `{constraint}`: {reason}"
  | .noObjective => "no objective: no soft constraint has been translated"
  | .noPenalty constraint => s!"`{constraint}` has no penalty variable"

/-- The penalty of a soft constraint. -/
structure Penalty where
  constraint : String
  name : String
  bound : Int
  price : Nat
deriving DecidableEq, Repr

/-- The entities formulated so far, and their penalties in that order. -/
structure Formulation where
  vars : List Variable
  constraints : List Constraint
  penalties : List Penalty

/-- A part of a weighted sum: factor, variable, and greatest value of the variable. -/
structure Summand where
  factor : Int
  name : String
  bound : Int
deriving DecidableEq, Repr

namespace Formulation

/-- The formulation of nothing. -/
def empty : Formulation := ⟨[], [], []⟩

/-! ### Expressions of single entities -/

/-- The indicator of a value is one exactly when the variable takes the value. -/
def indicatorExprs (name : String) (value : Int) : List Expr :=
  let ind := Names.indicator name value
  [ Expr.intRange ind 0 1,
    .imp (Expr.ge ind 1) (Expr.le name value),
    .imp (Expr.ge ind 1) (Expr.ge name value),
    .imp (.and [Expr.le name value, Expr.ge name value]) (Expr.ge ind 1) ]

/-- The declaration of a variable with its indicators. -/
def variableExprs (x : Variable) : List Expr :=
  .int x.name x.domain.values :: x.domain.values.flatMap (indicatorExprs x.name)

/-- The terms that relax a comparison, and the expressions that declare them. -/
def relaxation (name : String) (op : Comparator) (rhs lo hi : Int) :
    List NamedTerm × List Expr :=
  let pen := Names.penalty name
  let declare := Expr.intRange pen 0 (op.maxViolation rhs lo hi)
  match op with
  | .eq =>
    let pen1 := Names.deficit name
    let pen2 := Names.surplus name
    ([(1, pen1), (-1, pen2)],
      [ declare,
        Expr.intRange pen1 0 (Comparator.ge.maxViolation rhs lo hi),
        Expr.intRange pen2 0 (Comparator.le.maxViolation rhs lo hi),
        .linear [(1, pen), (-1, pen1), (-1, pen2)] .eq 0 ])
  | .le => ([(-1, pen)], [declare])
  | .lt => ([(-1, pen)], [declare])
  | .ge => ([(1, pen)], [declare])
  | .gt => ([(1, pen)], [declare])

/-- A comparison, relaxed by its penalty if it is soft. -/
def comparisonExprs (name : String) (weight : Weight) (terms : List NamedTerm) (op : Comparator)
    (rhs : Int) (range : Int × Int) : List Expr :=
  match weight with
  | .hard => [.labeled name (.linear terms op rhs)]
  | .soft _ =>
    let (slack, declarations) := relaxation name op rhs range.1 range.2
    declarations ++ [.labeled name (.linear (terms ++ slack) op rhs)]

/-- The statement that a predicate fails. -/
def deniedExpr (t : Predicate) : Expr :=
  let ind := Names.indicator t.var.name t.value
  if t.polarity then Expr.le ind 0 else Expr.ge ind 1

/-- A conflict: one of its predicates fails, or its penalty is one. -/
def conflictExprs (name : String) (weight : Weight) (terms : List Predicate) : List Expr :=
  match weight with
  | .hard => [.labeled name (.or (terms.map deniedExpr))]
  | .soft _ =>
    let pen := Names.penalty name
    [Expr.intRange pen 0 1, .labeled name (.or (terms.map deniedExpr ++ [Expr.ge pen 1]))]

/-- The expressions of a constraint. -/
def constraintExprs (c : Constraint) : List Expr :=
  match c.body with
  | .linear terms op rhs =>
    comparisonExprs c.name c.weight (terms.map fun t => (t.coeff, t.var.name)) op rhs
      (rangeOrAll (linearRange? terms))
  | .pseudoBoolean terms op rhs =>
    comparisonExprs c.name c.weight
      (terms.map fun t => (t.coeff, Names.indicator t.var.name t.value)) op rhs
      (rangeOrAll (indicatorRange? terms))
  | .conflict terms => conflictExprs c.name c.weight terms
  | .allDifferent vars => [.labeled c.name (.allDifferent (vars.map (·.name)))]

/-- The greatest value of the penalty of a soft constraint. -/
def penaltyOf? (c : Constraint) : Option Penalty :=
  match c.weight, c.penaltyBound? with
  | .soft price, some bound => some ⟨c.name, Names.penalty c.name, bound, price⟩
  | _, _ => none

/-! ### Formulating entities -/

/-- Formulates a variable. -/
def addVariable (f : Formulation) (x : Variable) :
    Except FormulationError (List Expr × Formulation) :=
  match f.vars.find? (·.name = x.name) with
  | some y =>
    if y = x then .ok (variableExprs x, f) else .error (.duplicateDeclaration x.name)
  | none => .ok (variableExprs x, { f with vars := f.vars ++ [x] })

/-- The first variable of a constraint that was not formulated. -/
def firstUnknown? (f : Formulation) (xs : List Variable) : Option Variable :=
  xs.find? fun x => f.vars.find? (·.name = x.name) ≠ some x

/-- The constraint is a soft all-different, which has no penalty. -/
def isSoftAllDifferent (c : Constraint) : Bool :=
  match c.body with
  | .allDifferent _ => c.isSoft
  | _ => false

/-- The error for a soft all-different constraint. -/
def softAllDifferent (c : Constraint) : FormulationError :=
  .unsupported c.name "soft all-different"

/-- Formulates a constraint. -/
def addConstraint (f : Formulation) (c : Constraint) :
    Except FormulationError (List Expr × Formulation) :=
  match f.constraints.find? (·.name = c.name) with
  | some d =>
    if d = c then .ok (constraintExprs c, f) else .error (.duplicateDeclaration c.name)
  | none =>
    match f.firstUnknown? c.vars with
    | some x => .error (.undeclaredVariable c.name x.name)
    | none =>
      if isSoftAllDifferent c then .error (softAllDifferent c)
      else
        .ok (constraintExprs c,
          { f with
            constraints := f.constraints ++ [c]
            penalties := f.penalties ++ (penaltyOf? c).toList })

/-- Refuses a model with a soft all-different constraint. -/
def checkSupported (m : Model) : Except FormulationError Unit :=
  match m.constraints.find? isSoftAllDifferent with
  | some c => .error (softAllDifferent c)
  | none => .ok ()

/-! ### Sums of penalties -/

/-- The greatest value of a weighted sum, added from the left to `acc`. -/
def boundOf : Int → List Summand → Checked Int
  | acc, [] => .ok acc
  | acc, s :: rest => do boundOf (← Word.add acc (← Word.mul s.factor s.bound)) rest

/-- The summands with opposite factors. -/
def opposites : List Summand → Checked (List NamedTerm)
  | [] => .ok []
  | s :: rest => do
    let w ← Word.neg s.factor
    return (w, s.name) :: (← opposites rest)

/-- Declares a name as a weighted sum. -/
def sumDefinition (name : String) (parts : List Summand) : Checked (List Expr) := do
  let ub ← boundOf 0 parts
  let terms ← opposites parts
  return [Expr.intRange name 0 ub, .linear ((1, name) :: terms) .eq 0]

/-- The penalty of a constraint. -/
def penalty (f : Formulation) (constraint : String) : Except FormulationError Penalty :=
  match f.penalties.find? (·.constraint = constraint) with
  | some p => .ok p
  | none => .error (.noPenalty constraint)

/-- A penalty as a summand with factor one. -/
def Penalty.summand (p : Penalty) : Summand := ⟨1, p.name, p.bound⟩

/-- Declares a name as the sum of the penalties of constraints, and gives its greatest value. -/
def aggregate (f : Formulation) (name : String) (cs : List Constraint) :
    Except (Failure FormulationError) (List Expr × Int) := do
  let ps ← Failure.ofExcept (cs.mapM fun c => f.penalty c.name)
  let ub ← (Word.sum (ps.map (·.bound)) : Checked Int)
  let exprs ← (sumDefinition name (ps.map Penalty.summand) : Checked (List Expr))
  return (exprs, ub)

/-- Something was formulated that may be minimized. -/
def hasObjective (f : Formulation) : Bool := !f.penalties.isEmpty

/-- The penalties of one price. -/
def ofPrice (price : Nat) (ps : List Penalty) : List Penalty := ps.filter (·.price = price)

/-- The prices of penalties in ascending order, each once. -/
def prices (ps : List Penalty) : List Nat :=
  (Ascending.ofList (ps.map fun p => (p.price : Int))).map Int.toNat

/-- Declares the sum of the penalties of each price in turn.  Gives the declarations and the sums
as summands of the objective. -/
def tierSums (ps : List Penalty) : List Nat → Checked (List Expr × List Summand)
  | [] => .ok ([], [])
  | price :: rest => do
    let members := ofPrice price ps
    let ub ← Word.sum (members.map (·.bound))
    let exprs ← sumDefinition (Names.tier price) (members.map Penalty.summand)
    let (others, summands) ← tierSums ps rest
    return (exprs ++ others, ⟨price, Names.tier price, ub⟩ :: summands)

/-- Declares the objective over all penalties so far. -/
def objective (f : Formulation) : Except (Failure FormulationError) (List Expr) := do
  if f.hasObjective then
    let (exprs, summands) ←
      (tierSums f.penalties (prices f.penalties) : Checked (List Expr × List Summand))
    let last ← (sumDefinition Names.objective summands : Checked (List Expr))
    return exprs ++ last
  else throw (.error .noObjective)

/-! ### Formulating models -/

/-- Formulates variables one after the other; what went before an error stays formulated. -/
def addVariables : List Variable → Step FormulationError Formulation (List Expr)
  | [] => return []
  | x :: xs => fun f =>
    match f.addVariable x with
    | .error e => .error (.error e) f
    | .ok (exprs, f) =>
      match addVariables xs f with
      | .ok others f => .ok (exprs ++ others) f
      | .error e f => .error e f

/-- Formulates constraints one after the other; what went before an error stays formulated. -/
def addConstraints : List Constraint → Step FormulationError Formulation (List Expr)
  | [] => return []
  | c :: cs => fun f =>
    match f.addConstraint c with
    | .error e => .error (.error e) f
    | .ok (exprs, f) =>
      match addConstraints cs f with
      | .ok others f => .ok (exprs ++ others) f
      | .error e f => .error e f

/-- Formulates a model: variables, constraints, and the objective if something is soft. -/
def addModel (m : Model) : Step FormulationError Formulation (List Expr) := do
  let xs ← addVariables m.vars
  let cs ← addConstraints m.constraints
  let f ← get
  if f.hasObjective then
    let o ← (f.objective : Except (Failure FormulationError) (List Expr))
    return xs ++ cs ++ o
  else return xs ++ cs

end Formulation

end WeightedCsp

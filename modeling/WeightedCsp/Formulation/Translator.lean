import WeightedCsp.Formulation.Basic

/-!
# Formulating with tables

A translator keeps what it says.  It has a table of variables and one of constraints, where an
entity stands with its expressions, a list of penalties in the order in which they came up, and a
table of the places where they stand.  An entity that comes up again is answered from the tables.

The tables are changed one after the other, and what a request has changed before it fails stays
changed.
-/

namespace WeightedCsp

/-- What was said so far.  A table has the entry that it got last in front. -/
structure Translator where
  /-- The variables, with what was said of them. -/
  vars : List (Variable × List Expr)
  /-- The constraints, with what was said of them. -/
  constraints : List (Constraint × List Expr)
  /-- The penalties. -/
  penalties : List Penalty
  /-- The places of the penalties, with the names of their constraints. -/
  places : List (String × Nat)

/-- A request to a translator. -/
abbrev Translating : Type → Type := EStateM FormulationError Translator

namespace Translator

open Formulation

/-- The translator that has said nothing. -/
def empty : Translator := ⟨[], [], [], []⟩

/-! ### Entities -/

/-- The entry of a variable. -/
def findVariable? (t : Translator) (name : String) : Option (Variable × List Expr) :=
  t.vars.find? (·.1.name = name)

/-- The entry of a constraint. -/
def findConstraint? (t : Translator) (name : String) : Option (Constraint × List Expr) :=
  t.constraints.find? (·.1.name = name)

/-- What an entry says; nothing if there is none. -/
def told {α : Type} : Option (α × List Expr) → List Expr
  | some (_, exprs) => exprs
  | none => []

/-- Translates a variable. -/
def addVariable (x : Variable) : Translating (List Expr) := do
  match (← get).findVariable? x.name with
  | some (y, _) => if y ≠ x then throw (.duplicateDeclaration x.name)
  | none => modify fun t => { t with vars := (x, variableExprs x) :: t.vars }
  return told ((← get).findVariable? x.name)

/-- The first variable of a constraint that was not translated. -/
def firstUnknown? (t : Translator) (xs : List Variable) : Option Variable :=
  xs.find? fun x => (t.findVariable? x.name).map (·.1) ≠ some x

/-- Puts a penalty at the end of the list, and its place into the table. -/
def addPenalty (p : Penalty) : Translating Unit :=
  modify fun t => { t with
    penalties := t.penalties ++ [p]
    places := (p.constraint, t.penalties.length) :: t.places }

/-- Takes note of the penalty of a constraint up to a bound; a hard constraint has none. -/
def charge (c : Constraint) (bound : Int) : Translating Unit :=
  match c.weight with
  | .hard => return ()
  | .soft price => addPenalty ⟨c.name, Names.penalty c.name, bound, price⟩

/-- What is said of a constraint, which takes note of its penalty. -/
def say (c : Constraint) : Translating (List Expr) := do
  match c.body with
  | .linear terms op rhs =>
    let (lo, hi) := rangeOrAll (linearRange? terms)
    charge c (op.maxViolation rhs lo hi)
  | .pseudoBoolean terms op rhs =>
    let (lo, hi) := rangeOrAll (indicatorRange? terms)
    charge c (op.maxViolation rhs lo hi)
  | .conflict _ => charge c 1
  | .allDifferent _ => if c.isSoft then throw (softAllDifferent c)
  return constraintExprs c

/-- Translates a constraint. -/
def addConstraint (c : Constraint) : Translating (List Expr) := do
  match (← get).findConstraint? c.name with
  | some (d, _) => if d ≠ c then throw (.duplicateDeclaration c.name)
  | none =>
    if let some x := (← get).firstUnknown? c.vars then
      throw (.undeclaredVariable c.name x.name)
    let exprs ← say c
    modify fun t => { t with constraints := (c, exprs) :: t.constraints }
  return told ((← get).findConstraint? c.name)

/-- The penalty of a constraint. -/
def penalty (t : Translator) (constraint : String) : Except (Failure FormulationError) Penalty :=
  match t.places.find? (·.1 = constraint) with
  | some (_, place) => (Checked.entry t.penalties place : Checked Penalty)
  | none => throw (.error (.noPenalty constraint))

/-! ### Models -/

/-- The formulation that is kept in the tables. -/
def formulation (t : Translator) : Formulation where
  vars := (t.vars.map (·.1)).reverse
  constraints := (t.constraints.map (·.1)).reverse
  penalties := t.penalties

/-- Translates entities one after the other. -/
def addAll {α : Type} (add : α → Translating (List Expr)) : List α → Translating (List Expr)
  | [] => return []
  | a :: as => do
    let exprs ← add a
    return exprs ++ (← addAll add as)

/-- Requests, as a step that may fault after them. -/
def requested {α : Type} (x : Translating α) : Step FormulationError Translator α := fun t =>
  match x t with
  | .ok a t => .ok a t
  | .error e t => .error (.error e) t

/-- Translates a model: variables, constraints, and the objective if something is soft. -/
def addModel (m : Model) : Step FormulationError Translator (List Expr) := do
  let xs ← requested (addAll addVariable m.vars)
  let cs ← requested (addAll addConstraint m.constraints)
  let f := (← get).formulation
  if f.hasObjective then
    let o ← (f.objective : Except (Failure FormulationError) (List Expr))
    return xs ++ cs ++ o
  else return xs ++ cs

end Translator

end WeightedCsp

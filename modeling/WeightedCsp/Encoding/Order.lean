import WeightedCsp.Literal
import WeightedCsp.Word

/-!
# Order encoding of integer variables

An integer variable `x` over the values `v₀ < … < vₖ` is represented by `k` literals `pᵢ`, where
`pᵢ` says `x ≤ vᵢ`.  The chain clauses `¬pᵢ ∨ pᵢ₊₁` make every valuation a staircase, so it decodes
to the value of the first true literal, or to `vₖ` if there is none.  Bounds on `x` are single
literals or constants, and `x = v₀ + Σ (vᵢ₊₁ - vᵢ)·¬pᵢ`.
-/

namespace WeightedCsp

/-- A statement about an encoded variable: constant, or as true as a literal. -/
inductive Atom where
  | true
  | false
  | lit (l : Lit)
deriving DecidableEq, Repr

namespace Atom

/-- The opposite statement. -/
def not : Atom → Atom
  | .true => .false
  | .false => .true
  | .lit l => .lit l.not

/-- The truth of an atom. -/
def eval (v : Valuation) : Atom → Bool
  | .true => Bool.true
  | .false => Bool.false
  | .lit l => v.lit l

@[simp]
theorem eval_not (v : Valuation) (a : Atom) : a.not.eval v = !a.eval v := by
  cases a <;> simp [not, eval]

/-- The clause of a disjunction of atoms: `none` if it is true for a constant. -/
def clause? : List Atom → Option Clause
  | [] => some []
  | .true :: _ => none
  | .false :: rest => clause? rest
  | .lit l :: rest => (clause? rest).map (l :: ·)

/-- Adds the disjunction of the atoms, unless a constant makes it true. -/
def addClause {ε : Type} (atoms : List Atom) : Encoder ε Unit :=
  match clause? atoms with
  | none => return ()
  | some c => Encoder.addClause c

end Atom

/-- An integer variable in order encoding: literal `i` says that the variable is at most value
`i`. -/
structure OrderVar where
  /-- The values in ascending order. -/
  values : List Int
  /-- A literal for each value but the last. -/
  lits : List Lit
deriving DecidableEq, Repr

namespace OrderVar

/-- The chain clauses: each literal implies the next. -/
def chain : List Lit → List Clause
  | a :: b :: rest => [a.not, b] :: chain (b :: rest)
  | _ => []

/-- Encodes a variable over ascending values with fresh literals. -/
def encode {ε : Type} (values : List Int) : Encoder ε OrderVar :=
  if values.isEmpty then fun s => .error (.fault .emptyOrder) s
  else do
    let lits ← Encoder.newLits (values.length - 1)
    Encoder.addClauses (chain lits)
    return ⟨values, lits⟩

/-- The least value. -/
def lb (x : OrderVar) : Int := x.values.headD 0

/-- The greatest value. -/
def ub (x : OrderVar) : Int := x.values.getLastD 0

/-- A search among the values, which are ascending: the place of `v`, or as an error the place at
which it could be inserted. -/
def search (x : OrderVar) (v : Int) : Except Nat Nat :=
  let place := (x.values.takeWhile (· < v)).length
  if x.values[place]? = some v then .ok place else .error place

/-- The place of the greatest value that is at most `v`, which is not below all values. -/
def placeBelow (x : OrderVar) (v : Int) : Nat :=
  match x.search v with
  | .ok place => place
  | .error place => place - 1

/-- The atom for `x ≤ v`. -/
def le (x : OrderVar) (v : Int) : Atom :=
  if v < x.lb then .false
  else if x.ub ≤ v then .true
  else (x.lits[x.placeBelow v]?).elim .false .lit

/-- The atom for `x ≥ v`. -/
def ge (x : OrderVar) (v : Int) : Checked Atom := do
  return (x.le (← Word.sub v 1)).not

/-- The steps between neighbouring values, each with the literal that says it is taken. -/
def steps : List Int → List Lit → Checked (List (Lit × Int))
  | u :: w :: us, l :: ls => do
    let d ← Word.sub w u
    return (l.not, d) :: (← steps (w :: us) ls)
  | _, _ => .ok []

/-- Weighted literals whose sum, added to the least value, is the value of the variable. -/
def weightedLits (x : OrderVar) : Checked (List (Lit × Int)) := steps x.values x.lits

/-- The value that a valuation of the literals stands for. -/
def decodeFrom (isTrue : Lit → Bool) : Int → List Int → List Lit → Int
  | u, w :: us, l :: ls => if isTrue l then u else decodeFrom isTrue w us ls
  | u, _, _ => u

/-- The value of the first true literal, or the greatest value. -/
def decode (x : OrderVar) (isTrue : Lit → Bool) : Int :=
  match x.values with
  | [] => 0
  | u :: us => decodeFrom isTrue u us x.lits

/-- The number of chain clauses. -/
def clauseCount (x : OrderVar) : Nat := x.lits.length - 1

/-- An atom for `x = v`; between two order literals it is a fresh literal with its definition. -/
def eqAtom {ε : Type} (x : OrderVar) (v : Int) : Encoder ε Atom :=
  match x.search v with
  | .error _ => return .false
  | .ok _ => do
    let le := x.le v
    let gt := (← (x.ge v : Checked Atom)).not
    match le, gt with
    | .true, .false => return .true
    | .lit l, .false => return .lit l
    | .true, .lit g => return .lit g.not
    | .lit l, .lit g => do
      let e ← Encoder.newLit
      Encoder.addClauses [[e.not, l], [e.not, g.not], [e, l.not, g]]
      return .lit e
    | _, _ => return .false

/-- The literals form a staircase: once one is true, all later ones are. -/
def Staircase (v : Valuation) (x : OrderVar) : Prop := v.Satisfies (chain x.lits)

end OrderVar

end WeightedCsp

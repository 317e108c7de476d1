import WeightedCsp.Fault

/-!
# Literals, clauses and fresh variables

A Boolean variable is a number; a literal is a variable with a sign.  A literal occupies 32 bits
together with its sign, so only the low 31 bits of a variable's number are part of it.  Fresh
variables come from a pool in ascending order.

A valuation says of every variable whether it is true.  A literal, a clause and a set of clauses
have their usual meaning under a valuation; this is the second side of every statement about
encodings.
-/

namespace WeightedCsp

/-- A Boolean variable or its negation. -/
structure Lit where
  /-- The number of the variable. -/
  var : Nat
  /-- The literal is the negation of the variable. -/
  neg : Bool
deriving DecidableEq, Repr, Hashable, Inhabited

/-- A disjunction of literals. -/
abbrev Clause : Type := List Lit

/-- The variable as text. -/
def varText (var : Nat) : String := "x" ++ var.repr

namespace Lit

/-- The number of variables that literals can tell apart. -/
def varLimit : Nat := 2147483648

/-- The literal of a variable; bits of the number that do not fit are dropped. -/
def ofVar (var : Nat) (neg : Bool) : Lit := ⟨var % varLimit, neg⟩

/-- The literal with the other sign. -/
def not (l : Lit) : Lit := ⟨l.var, !l.neg⟩

/-- The place of the literal in the order of literals. -/
def code (l : Lit) : Nat := 2 * l.var + l.neg.toNat

/-- The literal as text: a tilde marks a negation. -/
def text (l : Lit) : String := if l.neg then "~" ++ varText l.var else varText l.var

@[simp]
theorem not_not (l : Lit) : l.not.not = l := by
  simp [not]

/-- The literals in order, each once. -/
def sortDedup (ls : List Lit) : List Lit :=
  (ls.mergeSort fun a b => a.code ≤ b.code).eraseReps

end Lit

/-- A value in a partial valuation. -/
inductive Ternary where
  | true
  | false
  | dontCare
deriving DecidableEq, Repr

/-- The value of the negation. -/
def Ternary.not : Ternary → Ternary
  | .true => .false
  | .false => .true
  | .dontCare => .dontCare

/-! ### Meaning -/

/-- Which variables are true. -/
abbrev Valuation : Type := Nat → Bool

namespace Valuation

/-- The truth of a literal. -/
def lit (v : Valuation) (l : Lit) : Bool := v l.var != l.neg

/-- The truth of a clause. -/
def clause (v : Valuation) (c : Clause) : Bool := c.any v.lit

/-- Every clause is true. -/
def Satisfies (v : Valuation) (cs : List Clause) : Prop := ∀ c ∈ cs, v.clause c = true

@[simp]
theorem lit_not (v : Valuation) (l : Lit) : v.lit l.not = !v.lit l := by
  simp only [lit, Lit.not]
  cases v l.var <;> cases l.neg <;> rfl

end Valuation

/-! ### Encoders -/

/-- What an encoder has produced: the number of the next fresh variable and the clauses in the
order of their making. -/
structure Cnf where
  /-- The number of the next fresh variable, which is also the number of variables in use. -/
  next : Nat
  /-- The clauses so far. -/
  clauses : Array Clause

/-- An encoder with errors of type `ε`. -/
abbrev Encoder (ε : Type) : Type → Type := Step ε Cnf

namespace Encoder

/-- The number of variables that a pool can hand out. -/
def poolLimit : Nat := 4294967296

variable {ε : Type}

/-- Hands out the next variable. -/
def newVar : Encoder ε Nat := fun s =>
  if s.next + 1 < poolLimit then .ok s.next { s with next := s.next + 1 }
  else .error (.fault .add) s

/-- Hands out the next variable as a positive literal. -/
def newLit : Encoder ε Lit := do return Lit.ofVar (← newVar) false

/-- Hands out literals one after the other. -/
def newLits : Nat → Encoder ε (List Lit)
  | 0 => return []
  | n + 1 => do
    let l ← newLit
    return l :: (← newLits n)

/-- Adds a clause. -/
def addClause (c : Clause) : Encoder ε Unit := fun s =>
  .ok () { s with clauses := s.clauses.push c }

/-- Adds clauses one after the other. -/
def addClauses : List Clause → Encoder ε Unit
  | [] => return ()
  | c :: cs => do
    addClause c
    addClauses cs

end Encoder

end WeightedCsp

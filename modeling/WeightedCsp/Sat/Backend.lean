import WeightedCsp.Literal

/-!
# Satisfiability backends

A backend receives clauses and answers questions: are the clauses received so far satisfiable
together with some assumed literals?  Its state is of any type, so a backend may learn, count its
calls, give up whenever it likes, or answer from a script; it may also refuse a clause, or fail at a
question.  `Backend.Sound` is what a session has to know about one: the view of its state as the
list of received clauses, and answers that are right for these clauses and the assumptions of the
call.  A backend that is `Accepting` refuses no clause.
-/

namespace WeightedCsp

/-- The answer to one question. -/
inductive Answer where
  /-- Satisfiable, with the value of every variable that has one. -/
  | sat (value : Nat → Ternary)
  /-- Not satisfiable. -/
  | unsat
  /-- Stopped before a verdict. -/
  | interrupted

/-- The answer as a word. -/
def Answer.text : Answer → String
  | .sat _ => "SAT"
  | .unsat => "UNSAT"
  | .interrupted => "INTERRUPTED"

/-- A backend with states of type `σ`. -/
structure Backend (σ : Type) where
  /-- Receives a clause, or refuses it with a message. -/
  add : σ → Clause → Except String Unit × σ
  /-- Answers under assumptions, within a number of milliseconds if one is given, or fails with a
  message.  That the values of a model cannot be read counts as a failure too. -/
  solve : σ → List Lit → Option Nat → Except String Answer × σ
  /-- The milliseconds that have passed in this state since the work began. -/
  elapsed : σ → Nat

/-- The value of a literal, given the values of variables. -/
def litValue (value : Nat → Ternary) (l : Lit) : Ternary :=
  if l.neg then (value l.var).not else value l.var

/-! ### Meaning -/

/-- The answer is right for the clauses and the assumptions. -/
def Answer.RightFor (clauses : List Clause) (assumptions : List Lit) : Answer → Prop
  | .sat value =>
    (∀ c ∈ clauses, ∃ l ∈ c, litValue value l = .true) ∧
      ∀ l ∈ assumptions, litValue value l = .true
  | .unsat => ∀ v : Valuation, v.Satisfies clauses → ∃ l ∈ assumptions, v.lit l = false
  | .interrupted => True

/-- Answers are right for the clauses received so far; a question changes nothing about them. -/
structure Backend.Sound {σ : Type} (b : Backend σ) (clauses : σ → List Clause) : Prop where
  /-- A clause that is not refused is received. -/
  add : ∀ s c, (b.add s c).1 = .ok () → clauses (b.add s c).2 = clauses s ++ [c]
  /-- A question adds no clause. -/
  solve : ∀ s as limit, clauses (b.solve s as limit).2 = clauses s
  /-- Answers are right. -/
  right : ∀ s as limit a, (b.solve s as limit).1 = .ok a → a.RightFor (clauses s) as

/-- No clause is refused. -/
def Backend.Accepting {σ : Type} (b : Backend σ) : Prop := ∀ s c, (b.add s c).1 = .ok ()

end WeightedCsp

import WeightedCsp.Csp.Compile
import WeightedCsp.NameMap
import WeightedCsp.Sat.Backend

/-!
# Incremental sessions

A session accepts expressions, compiles them in batches into a backend, and asks for solutions
under assumptions.  If an expression of a batch cannot be compiled, nothing is sent, the entries
that the batch has made in the tables are taken back, and the queue is empty; the fresh variables it
has used up stay used.  A backend may refuse a clause: then the rest of the batch is not sent, but
the batch is in the tables.
-/

namespace WeightedCsp

/-- Why a step of a session fails. -/
inductive SessionError where
  /-- An expression, given in its written form, cannot be compiled. -/
  | compile (expr : String) (cause : CompileError)
  /-- An assumption speaks of a variable that was never declared. -/
  | undeclaredVariable (name : String)
  /-- The backend failed. -/
  | backend (message : String)
  /-- The backend refused a clause. -/
  | refused (message : String)
deriving DecidableEq, Repr

/-- The wording of a session error, outermost part first. -/
def SessionError.chain : SessionError → List String
  | .compile expr cause => [s!"failed to compile `{expr}`", cause.message]
  | .undeclaredVariable name => [(CompileError.undeclaredVariable name).message]
  | .backend message => [message]
  | .refused message => [message]

/-- Values of all declared variables, in the order of names. -/
abbrev Solution : Type := NameMap Int

namespace Solution

/-- A line for each variable. -/
def text (s : Solution) : String :=
  String.join (s.map fun (n, v) => n ++ " = " ++ v.repr ++ "\n")

end Solution

/-- The outcome of a question. -/
inductive Outcome where
  | sat (solution : Solution)
  | unsat
  | interrupted
deriving DecidableEq, Repr

/-- The outcome as a word. -/
def Outcome.text : Outcome → String
  | .sat _ => "SAT"
  | .unsat => "UNSAT"
  | .interrupted => "INTERRUPTED"

/-- A session on a backend with states of type `σ`. -/
structure Session (σ : Type) where
  /-- The state of the backend. -/
  backend : σ
  /-- The next fresh variable. -/
  next : Nat
  /-- The declared variables. -/
  vars : List (String × OrderVar)
  /-- The atoms for equalities. -/
  atoms : List ((String × Int) × Atom)
  /-- The entries of the batch that is being compiled. -/
  undo : Undo
  /-- The expressions that wait to be compiled. -/
  pending : List Expr
  /-- The assumptions for the next question. -/
  assumptions : List Lit
  /-- An empty clause was compiled. -/
  contradiction : Bool
  /-- The number of compiled expressions. -/
  exprCount : Nat

namespace Session

variable {σ : Type}

/-- The literal that is true in every model of a session. -/
def topLit : Lit := ⟨0, false⟩

/-- A session without expressions, on a backend that knows only the true literal. -/
def fresh (s : σ) : Session σ where
  backend := s
  next := 1
  vars := []
  atoms := []
  undo := {}
  pending := []
  assumptions := []
  contradiction := false
  exprCount := 0

/-- Opens a session on a backend; it begins with the clause of the true literal. -/
def start (b : Backend σ) (s : σ) : Except SessionError (Session σ) :=
  match b.add s [topLit] with
  | (.ok _, s) => .ok (fresh s)
  | (.error message, _) => .error (.refused message)

/-- Queues expressions. -/
def addExprs (es : List Expr) (s : Session σ) : Session σ := { s with pending := s.pending ++ es }

/-- Compiles expressions one after the other.  An error takes back what was entered, and is reported
with the expression. -/
def compileAll : List Expr → Step SessionError Tables Unit
  | [] => return ()
  | e :: es => fun t =>
    match Compiler.compile e t with
    | .ok _ t => compileAll es t
    | .error (.fault f) t => .error (.fault f) t
    | .error (.error cause) t =>
      match e.text with
      | .ok text => .error (.error (.compile text cause)) t.rollback
      | .error f => .error (.fault f) t.rollback

/-- Sends clauses to the backend, up to one that it refuses; an empty clause only sets the mark of a
contradiction. -/
def flush (b : Backend σ) : List Clause → EStateM String (σ × Bool) Unit
  | [], r => .ok () r
  | [] :: cs, (s, _) => flush b cs (s, true)
  | c :: cs, (s, contradiction) =>
    match b.add s c with
    | (.ok _, s) => flush b cs (s, contradiction)
    | (.error message, s) => .error message (s, contradiction)

/-- The tables that the next batch is compiled with; its log is empty. -/
def tables (s : Session σ) : Tables := ⟨⟨s.next, #[]⟩, s.vars, s.atoms, {}⟩

/-- The session with the tables that a batch has left, and no queue. -/
def withTables (t : Tables) (s : Session σ) : Session σ :=
  { s with next := t.cnf.next, vars := t.vars, atoms := t.atoms, undo := t.undo, pending := [] }

/-- The session with the backend that has received clauses, and the mark of a contradiction. -/
def withBackend (r : σ × Bool) (s : Session σ) : Session σ :=
  { s with backend := r.1, contradiction := r.2 }

/-- Compiles the queue and sends it to the backend. -/
def commit (b : Backend σ) : Step SessionError (Session σ) Unit := fun s =>
  if s.pending.isEmpty then .ok () s
  else
    match compileAll s.pending s.tables with
    | .error e t => .error e (s.withTables t)
    | .ok _ t =>
      let compiled := { s.withTables { t with undo := {} } with
        exprCount := s.exprCount + s.pending.length }
      match flush b t.cnf.clauses.toList (s.backend, s.contradiction) with
      | .ok _ r => .ok () (compiled.withBackend r)
      | .error message r => .error (.error (.refused message)) (compiled.withBackend r)

/-- The atoms that say `x op value`. -/
def assumptionAtoms (x : OrderVar) (op : Comparator) (value : Int) : Checked (List Atom) :=
  match op with
  | .le => return [x.le value]
  | .lt => do return [x.le (← Word.sub value 1)]
  | .ge => do return [← x.ge value]
  | .gt => do return [← x.ge (← Word.add value 1)]
  | .eq => do return [x.le value, ← x.ge value]

/-- The literals that are assumed for an atom. -/
def assumptionLits : Atom → List Lit
  | .true => []
  | .false => [topLit.not]
  | .lit l => [l]

/-- Assumes `name op value` for the next question. -/
def assume (b : Backend σ) (name : String) (op : Comparator) (value : Int) :
    Step SessionError (Session σ) Unit := do
  commit b
  match (← get).vars.lookup name with
  | none => Step.fail (.undeclaredVariable name)
  | some x => do
    let atoms ← (assumptionAtoms x op value : Checked (List Atom))
    modify fun s => { s with assumptions := s.assumptions ++ atoms.flatMap assumptionLits }

/-- The solution that a model of the clauses stands for. -/
def decode (vars : List (String × OrderVar)) (value : Nat → Ternary) : Solution :=
  NameMap.ofList (vars.map fun (name, x) =>
    (name, x.decode fun l => litValue value l = .true))

/-- The milliseconds that a clock with signed 64-bit seconds can count. -/
def clockEnd : Nat := 9223372036854775808000

/-- The limit lies beyond the end of the clock. -/
def isBeyondClock : Option Nat → Bool
  | some limit => clockEnd ≤ limit
  | none => false

/-- Asks for a solution under the assumptions, within a number of milliseconds if one is given.  The
assumptions are used up once the batch before the question is compiled and sent. -/
def solve (b : Backend σ) (limit : Option Nat) : Step SessionError (Session σ) Outcome := do
  commit b
  fun s =>
    let assumptions := s.assumptions
    let s := { s with assumptions := [] }
    if s.contradiction then .ok .unsat s
    else if isBeyondClock limit then .error (.fault .deadline) s
    else
      let (answer, backend) := b.solve s.backend assumptions limit
      let s := { s with backend := backend }
      match answer with
      | .ok (.sat value) => .ok (.sat (decode s.vars value)) s
      | .ok .unsat => .ok .unsat s
      | .ok .interrupted => .ok .interrupted s
      | .error message => .error (.error (.backend message)) s

/-- The variable is declared and compiled. -/
def isDeclared (s : Session σ) (name : String) : Bool := (s.vars.lookup name).isSome

end Session

end WeightedCsp

import WeightedCsp.Formulation.Basic
import WeightedCsp.Instance.OfModel
import WeightedCsp.LocalSearch
import WeightedCsp.Method.Report

/-!
# Optimizing by questions

What all strategies on a satisfiability backend share: a model, its formulation, a session that the
formulation goes to, the best solution so far, and the account of questions and time.  Bounds that
are to stay are added as expressions; everything else is assumed for one question.

`descend` improves an objective step by step: it asks for a value below the best one, keeps every
answer as a permanent bound, and ends with a proof or an interruption.  Every answer of a right
backend is smaller than the one before, so the first value limits the number of steps.  A backend
that is wrong may keep a loop going; the optimizer says how many turns more it is followed for.
-/

namespace WeightedCsp

/-- Limits of time in milliseconds, and how local search is to be run. -/
structure MethodOptions where
  /-- The limit of one question. -/
  callTimeout : Option Nat := none
  /-- The limit of the whole search. -/
  timeLimit : Option Nat := none
  /-- The options of local search. -/
  localSearch : LocalSearch.Options := {}
  /-- The time for a warm start as the environment gives it. -/
  warmStartSetting : Option String := none

/-- The seconds for the local search of a warm start: the time limit of the options, else the
setting of the environment if it is a 32-bit number, else a minute. -/
def MethodOptions.warmStartTimeout (o : MethodOptions) : Nat :=
  if 0 < o.localSearch.timeout then o.localSearch.timeout
  else
    match o.warmStartSetting with
    | none => 60
    | some text =>
      match Decimal.readNat 4294967295 (String.ofList (Text.trim text.toList)) with
      | .ok n => n
      | .error _ => 60

/-- Why a step of a method fails. -/
inductive MethodError where
  /-- The method stands at another phase than the step expects. -/
  | wrongPhase (expected found : Phase)
  /-- The model cannot be formulated. -/
  | formulation (e : FormulationError)
  /-- The session fails. -/
  | session (e : SessionError)
  /-- An objective has no value in a solution. -/
  | missingValue (name : String)
  /-- A tier admits no solution under the bounds of the tiers before it. -/
  | stuckTier (price : Nat)
  /-- The model has no instance. -/
  | scribe (e : Instance.ScribeError)
  /-- Local search fails. -/
  | localSearch (e : LocalSearch.Error)
  /-- A label in a log is no integer. -/
  | label (text var : String) (cause : Decimal.ReadError)

/-- The wording of a method error, outermost part first. -/
def MethodError.chain : MethodError → List String
  | .wrongPhase expected found =>
    ["expected method state " ++ expected.text ++ ", found " ++ found.text]
  | .formulation e => [e.message]
  | .session e => e.chain
  | .missingValue name => [s!"`{name}` is missing from the solution"]
  | .stuckTier price =>
    ["tier of weight " ++ price.repr ++ " is unsatisfiable under the bounds of heavier tiers"]
  | .scribe e => [e.message]
  | .localSearch e => e.chain
  | .label text var cause => [s!"invalid value `{text}` of `{var}`", cause.message]

/-- A question that was put on the way. -/
structure Question where
  /-- The bound on an objective that is tried with it. -/
  bound : Option Int
  /-- What came of it; a question that there is no time for counts as interrupted. -/
  outcome : Outcome
deriving DecidableEq, Repr

/-- A model on its way to an optimal assignment. -/
structure Optimizer (σ : Type) where
  /-- The model. -/
  model : Model
  /-- Limits and options. -/
  options : MethodOptions
  /-- The session. -/
  session : Session σ
  /-- What of the model is formulated. -/
  formulation : Formulation
  /-- Where the method stands. -/
  phase : Phase
  /-- The number of questions asked. -/
  solves : Nat
  /-- What came of the questions so far, in order. -/
  questions : List Question
  /-- The time at which the search began. -/
  started : Nat
  /-- The time that the search took, once it is at an end. -/
  took : Option Nat
  /-- The best solution so far. -/
  best : Option Solution
  /-- A descent was interrupted. -/
  timedOut : Bool
  /-- What was asked of a local search program, once it is asked. -/
  asked : Option LocalSearch.Request
  /-- The turns that a loop may take beyond those that a right backend can lead to. -/
  spareTurns : Nat := 0

/-- The end of a descent. -/
inductive Descent where
  /-- The value is minimal. -/
  | optimal (value : Int)
  /-- The value is the best before an interruption. -/
  | interrupted (value : Int)
deriving DecidableEq, Repr

/-- The value that a descent came to. -/
def Descent.value : Descent → Int
  | .optimal v => v
  | .interrupted v => v

namespace Optimizer

variable {σ : Type}

/-- A step of an optimizer. -/
abbrev Action (σ : Type) : Type → Type := Step MethodError (Optimizer σ)

/-- The optimizer of a model before its first step, on a session that begins at a time. -/
def initial (m : Model) (options : MethodOptions) (session : Session σ) (started : Nat) :
    Optimizer σ where
  model := m
  options := options
  session := session
  formulation := .empty
  phase := .start
  solves := 0
  questions := []
  started := started
  took := none
  best := none
  timedOut := false
  asked := none

/-- An optimizer for a model on a fresh session. -/
def new (b : Backend σ) (s : σ) (m : Model) (options : MethodOptions) :
    Except MethodError (Optimizer σ) := do
  (Formulation.checkSupported m).mapError .formulation
  let session ← (Session.start b s).mapError .session
  return initial m options session (b.elapsed s)

/-- The time since the search began. -/
def elapsed (b : Backend σ) (o : Optimizer σ) : Nat := b.elapsed o.session.backend - o.started

/-- Runs a step of the session. -/
def inSession {α : Type} (x : Step SessionError (Session σ) α) : Action σ α := fun o =>
  match x o.session with
  | .ok a s => .ok a { o with session := s }
  | .error e s => .error (e.map .session) { o with session := s }

/-- Demands that the method stands at a phase. -/
def expect (expected : Phase) : Action σ Unit := fun o =>
  if o.phase = expected then .ok () o else .error (.error (.wrongPhase expected o.phase)) o

/-- Moves on to a phase; at an end the time is taken. -/
def enter (b : Backend σ) (phase : Phase) : Action σ Unit := fun o =>
  .ok () { o with
    phase := phase
    took := if phase.isFinal then some (o.elapsed b) else o.took }

/-- Queues expressions. -/
def queue (es : List Expr) : Action σ Unit := fun o =>
  .ok () { o with session := o.session.addExprs es }

/-- Formulates variables and queues what is said of them. -/
def addVariables : List Variable → Action σ Unit
  | [] => return ()
  | x :: xs => do
    match (← get).formulation.addVariable x with
    | .error e => Step.fail (.formulation e)
    | .ok (exprs, f) => do
      modify fun o => { o with formulation := f }
      queue exprs
      addVariables xs

/-- Formulates constraints and queues what is said of them. -/
def addConstraints : List Constraint → Action σ Unit
  | [] => return ()
  | c :: cs => do
    match (← get).formulation.addConstraint c with
    | .error e => Step.fail (.formulation e)
    | .ok (exprs, f) => do
      modify fun o => { o with formulation := f }
      queue exprs
      addConstraints cs

/-- The soft constraints of one price. -/
def tierMembers (m : Model) (price : Nat) : List Constraint :=
  m.constraints.filter fun c => c.weight = .soft price

/-- A computation on the formulation. -/
def formulating {α : Type} (r : Except (Failure FormulationError) α) :
    Except (Failure MethodError) α :=
  match r with
  | .ok a => .ok a
  | .error e => .error (e.map .formulation)

/-- Formulates the soft constraints of one price and declares a name as the sum of their penalties;
gives the greatest value of the sum. -/
def addTier (name : String) (price : Nat) : Action σ Int := do
  let members := tierMembers (← get).model price
  addConstraints members
  let (exprs, ub) ← (formulating ((← get).formulation.aggregate name members) :
    Except (Failure MethodError) (List Expr × Int))
  queue exprs
  return ub

/-- Compiles what is queued. -/
def encode (b : Backend σ) : Action σ Unit := do
  expect .formulated
  inSession (Session.commit b)
  enter b .encoded

/-- Begins the search. -/
def beginSearch (b : Backend σ) : Action σ Unit := do
  expect .encoded
  modify fun o => { o with started := b.elapsed o.session.backend }
  enter b .searching

/-- Binds a variable for good. -/
def bindValue (name : String) (op : Comparator) (value : Int) : Action σ Unit :=
  queue [Expr.cmp name op value]

/-- Binds a variable for the next question. -/
def assume (b : Backend σ) (name : String) (op : Comparator) (value : Int) : Action σ Unit :=
  inSession (Session.assume b name op value)

/-- The limit of the next question: the smaller one of its own limit and of what is left of the
search. -/
def callLimit (b : Backend σ) (o : Optimizer σ) : Option Nat :=
  let left := o.options.timeLimit.map fun limit => limit - o.elapsed b
  match o.options.callTimeout, left with
  | some call, some left => some (min call left)
  | some call, none => some call
  | none, left => left

/-- Puts a question to the session, unless there is no time left for it. -/
def pose (b : Backend σ) : Action σ Outcome := do
  match (← get).callLimit b with
  | some 0 => return .interrupted
  | limit => do
    modify fun o => { o with solves := o.solves + 1 }
    inSession (Session.solve b limit)

/-- Asks a question, which may try a bound, and notes what comes of it. -/
def ask (b : Backend σ) (bound : Option Int) : Action σ Outcome := do
  let outcome ← pose b
  modify fun o => { o with questions := o.questions ++ [⟨bound, outcome⟩] }
  return outcome

/-- Keeps a solution as the best one. -/
def record (s : Solution) : Action σ Unit := modify fun o => { o with best := some s }

/-- Asks the first question; without a solution the method is at an end. -/
def firstSolution (b : Backend σ) : Action σ (Option Solution) := do
  match ← ask b none with
  | .sat s => return some s
  | .unsat => do
    enter b .infeasible
    return none
  | .interrupted => do
    enter b .timeout
    return none

/-- The value of an objective in a solution. -/
def valueOf (s : Solution) (name : String) : Action σ Int :=
  match s.get? name with
  | some v => return v
  | none => Step.fail (.missingValue name)

/-- Improves an objective from a value on, for at most `fuel` steps. -/
def descendFrom (b : Backend σ) (name : String) : Nat → Int → Action σ Descent
  | 0, best => return if best ≤ 0 then .optimal best else .interrupted best
  | fuel + 1, best =>
    if best ≤ 0 then return .optimal best
    else do
      assume b name .le (best - 1)
      match ← ask b (some (best - 1)) with
      | .sat s => do
        let best ← valueOf s name
        bindValue name .le best
        record s
        descendFrom b name fuel best
      | .unsat => return .optimal best
      | .interrupted => return .interrupted best

/-- Improves an objective from a value on. -/
def descend (b : Backend σ) (name : String) (best : Int) : Action σ Descent := do
  descendFrom b name (best.toNat + (← get).spareTurns) best

/-- Notes that a descent was interrupted. -/
def noteTimeout : Descent → Action σ Unit
  | .optimal _ => return ()
  | .interrupted _ => modify fun o => { o with timedOut := true }

/-- The end of a search all of whose descents are done. -/
def finishDescents (b : Backend σ) : Action σ Unit := do
  enter b (if (← get).timedOut then .timeout else .optimal)

/-- The search for a model in which nothing is soft: any solution is optimal. -/
def anySolution (b : Backend σ) : Action σ Unit := do
  match ← firstSolution b with
  | none => return ()
  | some s => do
    record s
    enter b .optimal

/-- The report on the best solution. -/
def report (b : Backend σ) (name : String) (o : Optimizer σ) : Checked Report :=
  Report.new name o.model o.phase o.best o.solves (o.took.getD (o.elapsed b))

end Optimizer

end WeightedCsp

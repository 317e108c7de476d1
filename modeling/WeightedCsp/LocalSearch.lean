import WeightedCsp.Instance.Text
import WeightedCsp.SolverLog

/-!
# Running a local search program

A local search is a program that reads an instance from its standard input and writes a log.  What
running a program comes to is left to a `Runner`, a function of the request; this module says what
is asked of the program, and what its reply means.
-/

namespace WeightedCsp.LocalSearch

/-- How a local search is to be run. -/
structure Options where
  /-- The program. -/
  program : String := "scop"
  /-- How much is to be shown, from zero to three. -/
  verbose : Nat := 0
  /-- The seed of the random numbers. -/
  seed : Nat := 1
  /-- The time limit in seconds; zero for none. -/
  timeout : Nat := 0
  /-- The penalty at which to stop; zero for none. -/
  target : Nat := 0
  /-- Where the log is to be kept, if anywhere. -/
  logPath : Option String := none
deriving DecidableEq

/-- An argument that is left out when it is zero. -/
def flag (name : String) (value : Nat) : List String :=
  if value = 0 then [] else [name, value.repr]

/-- The arguments of the program. -/
def Options.args (o : Options) : List String :=
  flag "-display" o.verbose ++ ["-seed", o.seed.repr] ++ flag "-time" o.timeout ++
    flag "-target" o.target

/-- What a program is asked to do. -/
structure Request where
  /-- The program. -/
  program : String
  /-- Its arguments. -/
  args : List String
  /-- Its standard input. -/
  input : String
  /-- The file that its output goes to, if it is to be kept. -/
  logPath : Option String
deriving DecidableEq

/-- What running a program comes to. -/
inductive Reply where
  /-- The file for the log cannot be made. -/
  | noLogFile (path reason : String)
  /-- The program cannot be started. -/
  | notStarted (reason : String)
  /-- The program ended with a code, leaving a log. -/
  | exited (code : Nat) (log : List UInt8)
  /-- The program was killed. -/
  | killed

/-- Runs programs. -/
abbrev Runner : Type := Request → Reply

/-- Why a local search gives no log. -/
inductive Error where
  /-- The verbosity is out of range. -/
  | verbosity (n : Nat)
  /-- The file for the log cannot be made. -/
  | noLogFile (path reason : String)
  /-- The program cannot be started. -/
  | notStarted (program reason : String)
  /-- The program ended with a code other than zero. -/
  | exitCode (code : Nat)
  /-- The program was killed. -/
  | killed
  /-- The log is no text. -/
  | unreadable
  /-- The log does not have its form. -/
  | malformed (e : LogError)
deriving DecidableEq

/-- The wording of a local search error, outermost part first. -/
def Error.chain : Error → List String
  | .verbosity n => ["local-search verbosity must be between 0 and 3, got " ++ n.repr]
  | .noLogFile path reason => ["could not create log file " ++ path, reason]
  | .notStarted program reason => ["could not run " ++ program, reason]
  | .exitCode code => ["local-search solver returned unexpected code " ++ code.repr]
  | .killed => ["local-search solver terminated by signal"]
  | .unreadable => [LogError.invalidText.message]
  | .malformed e => ["malformed solver log", e.message]

/-- Refuses a verbosity out of range. -/
def Options.check (o : Options) : Except Error Unit :=
  if o.verbose ≤ 3 then .ok () else .error (.verbosity o.verbose)

/-- What is asked of the program for an instance, if the options are in range. -/
def Options.request (o : Options) (i : Instance) : Except Error Request := do
  o.check
  return ⟨o.program, o.args, i.text, o.logPath⟩

/-- What a log says, and its text. -/
def readLog (log : List UInt8) : Except Error (SolverLog × String) :=
  match String.fromUTF8? (ByteArray.mk log.toArray) with
  | none => .error .unreadable
  | some text =>
    match SolverLog.parse log with
    | .ok result => .ok (result, text)
    | .error e => .error (.malformed e)

/-- What the reply to a request means. -/
def Request.result (q : Request) : Reply → Except Error (SolverLog × String)
  | .noLogFile path reason => .error (.noLogFile path reason)
  | .notStarted reason => .error (.notStarted q.program reason)
  | .killed => .error .killed
  | .exited code log => if code = 0 then readLog log else .error (.exitCode code)

/-- Runs a local search on an instance; gives what the log says and its text. -/
def solve (o : Options) (run : Runner) (i : Instance) : Except Error (SolverLog × String) := do
  let q ← o.request i
  q.result (run q)

end WeightedCsp.LocalSearch

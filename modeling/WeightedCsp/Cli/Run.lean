import WeightedCsp.Cli.Command
import WeightedCsp.Formulation.Translator
import WeightedCsp.MagicSquare
import WeightedCsp.Random.Stream
import WeightedCsp.Roster.Model
import WeightedCsp.Roster.Random
import WeightedCsp.Sat.Kernel

/-!
# Carrying out a command

A command builds its model, writes what is to be written, solves the model and shows the report.
What the world around it does, running a program and refusing a file, is given as functions, and
what the command does to the world is its outcome.
-/

namespace WeightedCsp.Cli

/-- The world around a command. -/
structure World where
  /-- Runs a local search program. -/
  run : LocalSearch.Runner
  /-- Why no file can be made at a path, if that is so. -/
  refuses : String → Option String
  /-- The time for a warm start as the environment gives it. -/
  warmStartSetting : Option String

/-- What a command does to the world. -/
structure Outcome where
  /-- The exit code. -/
  code : Nat
  /-- The text on standard output. -/
  output : String := ""
  /-- The text on standard error. -/
  message : String := ""
  /-- The files written, with their contents, in order. -/
  files : List (String × String) := []
  /-- What was asked of a local search program. -/
  asked : Option LocalSearch.Request := none

/-- Why a command fails. -/
inductive Error where
  | square (e : MagicSquare.Error)
  | roster (e : Roster.Error)
  | scribe (e : Instance.ScribeError)
  | formulation (e : FormulationError)
  | file (path reason : String)
  | method (e : MethodError)

/-- The wording of an error, outermost part first. -/
def Error.chain : Error → List String
  | .square e => e.chain
  | .roster e => e.chain
  | .scribe e => [e.message]
  | .formulation e => [e.message]
  | .file path reason => ["failed to create " ++ path, reason]
  | .method e => e.chain

/-- Lines with their numbers, from `n` on. -/
def numbered (n : Nat) : List String → String
  | [] => ""
  | c :: rest => "    " ++ n.repr ++ ": " ++ c ++ "\n" ++ numbered (n + 1) rest

/-- An error with its causes; several causes are numbered. -/
def errorText : List String → String
  | [] => "Error: \n"
  | [top] => "Error: " ++ top ++ "\n"
  | [top, cause] => "Error: " ++ top ++ "\n\nCaused by:\n    " ++ cause ++ "\n"
  | top :: causes => "Error: " ++ top ++ "\n\nCaused by:\n" ++ numbered 0 causes

/-- A command on its way: what it has done so far is its outcome, even if it fails later. -/
abbrev Doing : Type → Type := Step Error Outcome

/-- A computation of the library. -/
def doing {ε α : Type} (f : ε → Error) (r : Except (Failure ε) α) : Doing α := fun o =>
  match r with
  | .ok a => .ok a o
  | .error e => .error (e.map f) o

/-- The model of a problem. -/
def modelOf : Problem → Doing Model
  | .square n weight =>
    doing .square (MagicSquare.model n ((weight.map Weight.ofInt).getD .hard))
  | .roster params seed => do
    let r ← doing .roster (Roster.random Stream.draws (.ofSeed seed) params)
    doing .roster r.model

/-- Writes a file. -/
def writeFile (w : World) (path content : String) : Doing Unit := fun o =>
  match w.refuses path with
  | some reason => .error (.error (.file path reason)) o
  | none => .ok () { o with files := o.files ++ [(path, content)] }

/-- The written form of the instance of a model. -/
def instanceText (m : Model) : Except (Failure Instance.ScribeError) String :=
  match Instance.Scribe.writeModel m .start with
  | .ok i _ => .ok i.text
  | .error e _ => .error e

/-- The expressions of a model, one on a line. -/
def exprsText (m : Model) : Except (Failure FormulationError) String :=
  match Translator.addModel m .empty with
  | .ok es _ => do
    let texts ← (Expr.texts es : Checked (List String))
    return String.join (texts.map (· ++ "\n"))
  | .error e _ => .error e

/-- Writes what is to be written of a model. -/
def dump (w : World) (s : Settings) (m : Model) : Doing Unit := do
  if let some path := s.dumpInstance then
    writeFile w path (← doing .scribe (instanceText m))
  if let some path := s.dumpExprs then
    writeFile w path (← doing .formulation (exprsText m))

/-- The options of a method. -/
def optionsOf (w : World) (s : Settings) : MethodOptions where
  callTimeout := s.timeout.map (· * 1000)
  timeLimit := s.timeLimit.map (· * 1000)
  localSearch :=
    { program := s.program, verbose := s.searchVerbose, seed := s.searchSeed,
      timeout := s.searchTimeout.getD 0 }
  warmStartSetting := w.warmStartSetting

/-- Runs a method from its start, and notes what it asked of a local search program. -/
def runMethod {σ : Type} (asked : σ → Option LocalSearch.Request)
    (x : Step MethodError σ Report) (s : σ) : Doing Report := fun o =>
  match x s with
  | .ok r s => .ok r { o with asked := asked s }
  | .error e s => .error (e.map .method) { o with asked := asked s }

/-- Solves a model. -/
def solve (w : World) (s : Settings) (m : Model) : Doing Report :=
  let options := optionsOf w s
  match s.approach with
  | .localSearch => runMethod (·.asked) (LocalOnly.complete w.run) (.new m options)
  | .questions strategy => do
    let b := Sat.Kernel.backend
    let o ← doing .method (Failure.ofExcept (Optimizer.new b .start m options))
    runMethod (·.asked) (strategy.complete b w.run) o

/-- Carries out a command. -/
def carryOut (w : World) (c : Command) : Doing Unit := do
  let m ← modelOf c.problem
  dump w c.settings m
  let r ← solve w c.settings m
  modify fun o => { o with output := r.text }

/-- How to write a command. -/
def usage : String :=
  "Usage: coptool [OPTIONS] magic-square [N] [--weight WEIGHT]\n" ++
  "       coptool [OPTIONS] roster [--staff N] [--days N] [--shifts N]\n" ++
  "               [--max-consecutive N] [--min-consecutive N] [--seed SEED]\n" ++
  "Options: --method METHOD, --timeout SECONDS, --time-limit SECONDS, --scop PROGRAM,\n" ++
  "  --scop-timeout SECONDS, --scop-seed SEED, --scop-verbose LEVEL,\n" ++
  "  --dump-scop PATH, --dump-csp PATH\n"

/-- The outcome of a command line: code 0 if it is carried out or help is asked for, 1 if it fails,
2 if it is wrong, and 101 if it ends in a fault. -/
def run (w : World) (args : List String) : Outcome :=
  match Command.read args with
  | .error .help => { code := 0, output := usage }
  | .error .usage => { code := 2, message := usage }
  | .ok c =>
    match carryOut w c { code := 0 } with
    | .ok _ o => o
    | .error (.error e) o => { o with code := 1, message := errorText e.chain }
    | .error (.fault f) o => { o with code := 101, message := f.message ++ "\n" }

end WeightedCsp.Cli

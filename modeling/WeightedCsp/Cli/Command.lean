import WeightedCsp.Cli.Options
import WeightedCsp.Method.Strategy
import WeightedCsp.Roster.Basic

/-!
# Commands

A command names a problem, a magic square or a random roster, and says how it is to be solved and
what is to be written.  Options that say how to solve may stand before the problem or after it; if
an option stands at both places, the one after the problem counts.
-/

namespace WeightedCsp.Cli

/-- How a problem is to be solved. -/
inductive Approach where
  | questions (strategy : Strategy)
  | localSearch
deriving DecidableEq, Repr

/-- The approach of that name. -/
def Approach.ofName? (name : String) : Option Approach :=
  if name = "local-search" then some .localSearch
  else (Strategy.all.find? (·.name = name)).map .questions

/-- The options that do not depend on the problem.  Times are in seconds. -/
structure Settings where
  /-- The approach. -/
  approach : Approach := .questions .linear
  /-- The limit of one question. -/
  timeout : Option Nat := none
  /-- The limit of the whole search. -/
  timeLimit : Option Nat := none
  /-- The local search program. -/
  program : String := "scop"
  /-- The limit of the local search. -/
  searchTimeout : Option Nat := none
  /-- The seed of the local search. -/
  searchSeed : Nat := 1
  /-- The verbosity of the local search. -/
  searchVerbose : Nat := 0
  /-- Where the weighted-linear instance is to be written. -/
  dumpInstance : Option String := none
  /-- Where the expressions are to be written. -/
  dumpExprs : Option String := none
deriving DecidableEq, Repr

/-- A problem. -/
inductive Problem where
  /-- A magic square of side `n`, with line sums of a weight, or hard ones. -/
  | square (n : Nat) (weight : Option Int)
  /-- A roster drawn from a seed. -/
  | roster (params : Roster.Params) (seed : Nat)
deriving DecidableEq, Repr

/-- What a command line asks for. -/
structure Command where
  settings : Settings
  problem : Problem
deriving DecidableEq, Repr

/-! ### Values -/

/-- A number of 64 bits without a sign. -/
def size? (text : String) : Option Nat := (Decimal.readNat 18446744073709551615 text).toOption

/-- A signed number of 64 bits. -/
def int? (text : String) : Option Int := (Decimal.readInt text).toOption

/-- A signed number of 64 bits that lies between zero and a limit. -/
def small? (limit : Nat) (text : String) : Option Nat :=
  match int? text with
  | some n => if 0 ≤ n ∧ n ≤ limit then some n.toNat else none
  | none => none

/-- A path, which is not empty. -/
def path? (text : String) : Option String := if text = "" then none else some text

/-- An option whose value is read by a function. -/
def rule {α β : Type} (name : String) (value? : String → Option β) (set : α → β → α) :
    OptionRule α :=
  ⟨name, fun text a => (value? text).map (set a)⟩

/-! ### Rules -/

/-- The options that do not depend on the problem. -/
def settingsRules : List (OptionRule Settings) :=
  [ rule "method" Approach.ofName? fun s v => { s with approach := v },
    rule "timeout" size? fun s v => { s with timeout := some v },
    rule "time-limit" size? fun s v => { s with timeLimit := some v },
    rule "scop" path? fun s v => { s with program := v },
    rule "scop-timeout" (small? 4294967295) fun s v => { s with searchTimeout := some v },
    rule "scop-seed" (small? 4294967295) fun s v => { s with searchSeed := v },
    rule "scop-verbose" (small? 255) fun s v => { s with searchVerbose := v },
    rule "dump-scop" path? fun s v => { s with dumpInstance := some v },
    rule "dump-csp" path? fun s v => { s with dumpExprs := some v } ]

/-- The part before the problem. -/
def rootLevel : Level Unit Settings := ⟨[], settingsRules, none, true, true⟩

/-- The part after `magic-square`: side and weight. -/
def squareLevel : Level (Nat × Option Int) Settings where
  own := [rule "weight" int? fun s v => (s.1, some v)]
  shared := settingsRules
  positional := some fun text s => (size? text).map fun n => (n, s.2)
  stops := false
  version := false

/-- The part after `roster`: parameters and seed. -/
def rosterLevel : Level (Roster.Params × Nat) Settings where
  own :=
    [ rule "staff" size? fun s v => ({ s.1 with staff := v }, s.2),
      rule "days" size? fun s v => ({ s.1 with days := v }, s.2),
      rule "shifts" size? fun s v => ({ s.1 with shifts := v }, s.2),
      rule "max-consecutive" size? fun s v => ({ s.1 with maxConsecutive := v }, s.2),
      rule "min-consecutive" size? fun s v => ({ s.1 with minConsecutive := v }, s.2),
      rule "seed" size? fun s v => (s.1, v) ]
  shared := settingsRules
  positional := none
  stops := false
  version := false

/-! ### Reading -/

/-- The names of the problems, and of the request for help. -/
def subcommands : List String := ["magic-square", "roster", "help"]

/-- A request for help on a subcommand, or on none. -/
def helpRequest : List String → Refusal
  | [] => .help
  | [name] => if name ∈ subcommands then .help else .usage
  | _ => .usage

/-- Reads the problem and the options after it. -/
def readProblem (settings : Settings) (name : String) (args : List String) :
    Except Refusal Command := do
  if name = "magic-square" then
    let (r, _) ← squareLevel.read args ⟨(3, none), settings, [], false⟩
    return ⟨r.shared, .square r.own.1 r.own.2⟩
  else if name = "roster" then
    let (r, _) ← rosterLevel.read args ⟨({}, 42), settings, [], false⟩
    return ⟨r.shared, .roster r.own.1 r.own.2⟩
  else if name = "help" then throw (helpRequest args)
  else throw .usage

/-- Reads a command line. -/
def Command.read (args : List String) : Except Refusal Command := do
  let (r, rest) ← rootLevel.read args ⟨(), {}, [], false⟩
  match rest with
  | [] => throw .usage
  | name :: rest => readProblem r.shared name rest

end WeightedCsp.Cli

import WeightedCsp.Sat.Backend
import WeightedCsp.Sat.Search

/-!
# A recording backend

Answers with the least model, false before true and smaller variables first.  It keeps a record of
everything it was asked, and follows a script that names calls to be interrupted or to fail.  Calls
are counted from one.  It keeps no time: a limit on a call is recorded and never reached.
-/

namespace WeightedCsp.Sat

/-- What came of a call. -/
inductive CallResult where
  | answered (text : String)
  | failed
deriving DecidableEq, Repr

/-- The record of one call. -/
structure Call where
  /-- The number of clauses received before the call. -/
  received : Nat
  /-- The assumptions. -/
  assumptions : List Lit
  /-- Whether the call had a time limit. -/
  limited : Bool
  /-- What came of it. -/
  result : CallResult

/-- The script and the record. -/
structure Scripted where
  /-- The calls to be interrupted. -/
  interrupts : List Nat
  /-- The calls to fail, which wins over an interruption. -/
  failures : List Nat
  /-- The clauses received. -/
  clauses : Array Clause
  /-- The calls made. -/
  calls : Array Call
  /-- The search, at its bottom level. -/
  search : Search
  /-- For each variable below the bound, whether a clause or an assumption mentions it. -/
  mentioned : Array Bool

namespace Scripted

/-- The record before the first clause. -/
def start (interrupts failures : List Nat) : Scripted :=
  ⟨interrupts, failures, #[], #[], .empty, #[]⟩

/-- One more than the greatest variable mentioned so far. -/
def varBound (s : Scripted) : Nat := s.mentioned.size

/-- Marks the variables of literals as mentioned. -/
def mention (marks : Array Bool) (ls : List Lit) : Array Bool :=
  let more := Sat.varBound 0 ls - marks.size
  ls.foldl (fun marks l => marks.setIfInBounds l.var true) (marks ++ Array.replicate more false)

/-- Receives a clause. -/
def add (s : Scripted) (c : Clause) : Scripted :=
  { s with
    clauses := s.clauses.push c
    search := s.search.receive c
    mentioned := mention s.mentioned c }

/-- The answer that a verdict gives; only mentioned variables have values. -/
def answerOf (mentioned : Array Bool) : Search.Verdict → Answer
  | .model value =>
    .sat fun x =>
      if mentioned.getD x false then (if value.getD (2 * x) 0 = 1 then .true else .false)
      else .dontCare
  | .unsat => .unsat
  | .gaveUp => .interrupted

/-- The record with one more call. -/
def record (s : Scripted) (assumptions : List Lit) (limit : Option Nat) (result : CallResult) :
    Scripted :=
  { s with calls := s.calls.push ⟨s.clauses.size, assumptions, limit.isSome, result⟩ }

/-- Answers a call as the script says. -/
def solve (s : Scripted) (assumptions : List Lit) (limit : Option Nat) :
    Except String Answer × Scripted :=
  let number := s.calls.size + 1
  let s := { s with mentioned := mention s.mentioned assumptions }
  if number ∈ s.failures then (.error "scripted failure", s.record assumptions limit .failed)
  else if number ∈ s.interrupts then
    (.ok .interrupted, s.record assumptions limit (.answered Answer.interrupted.text))
  else
    let (verdict, search) := s.search.ask false assumptions
    let answer := answerOf s.mentioned verdict
    (.ok answer, { s with search := search }.record assumptions limit (.answered answer.text))

/-- The recording backend. -/
def backend : Backend Scripted where
  add s c := (.ok (), s.add c)
  solve := solve
  elapsed _ := 0

/-- The number of calls that were answered with the given word. -/
def countOf (s : Scripted) (text : String) : Nat :=
  s.calls.foldl (fun n c => if c.result = .answered text then n + 1 else n) 0

end Scripted

end WeightedCsp.Sat

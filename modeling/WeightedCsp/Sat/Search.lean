import WeightedCsp.Literal

/-!
# Conflict-driven search for an extreme model

The search decides variables in ascending order, each to a preferred value, and propagates units
through two watched literals per clause.  A conflict is analysed back to the first unique
implication point, the learnt clause is kept, and the search goes on from the level at which that
clause propagates.

Because a variable is decided only when all smaller ones have values, and only to the preferred
one, a variable that ends up with the other value is implied by assumptions and smaller variables.
So the model found is the first one in the lexicographic order that compares smaller variables
first and puts the preferred value before the other.

A literal is written as its code `2·var + sign`; the code of its negation is the neighbour with
the other low bit.
-/

namespace WeightedCsp.Sat

/-- The code of the negation. -/
def flip (l : Nat) : Nat := if l % 2 = 0 then l + 1 else l - 1

/-- The state of a search. -/
structure Search where
  /-- The clauses with at least two literals; the first two of each are watched. -/
  clauses : Array (Array Nat)
  /-- For each literal, the clauses that watch it. -/
  watches : Array (Array Nat)
  /-- For each literal: `1` true, `2` false, `0` open. -/
  value : Array UInt8
  /-- For each variable, the level at which it got its value. -/
  level : Array Nat
  /-- For each variable, the clause that implied its value, counted from one; zero for decisions. -/
  reason : Array Nat
  /-- The true literals in the order they became true. -/
  trail : Array Nat
  /-- For each level, the length of the trail at its start. -/
  limits : Array Nat
  /-- For each level, a variable below which all are decided at its start. -/
  starts : Array Nat
  /-- The number of literals of the trail that are propagated. -/
  head : Nat
  /-- Marks of variables for the analysis of a conflict. -/
  seen : Array Bool
  /-- The clauses contradict each other. -/
  contradiction : Bool

namespace Search

/-- The search over no variables and no clauses. -/
def empty : Search where
  clauses := #[]
  watches := #[]
  value := #[]
  level := #[]
  reason := #[]
  trail := #[]
  limits := #[]
  starts := #[]
  head := 0
  seen := #[]
  contradiction := false

/-- The state of a literal: `1` true, `2` false, `0` open. -/
@[inline]
def valueOf (s : Search) (l : Nat) : UInt8 := s.value.getD l 0

/-- Makes an open literal true for a reason. -/
def assign (s : Search) (l reason : Nat) : Search :=
  let depth := s.limits.size
  { s with
    value := (s.value.setIfInBounds l 1).setIfInBounds (flip l) 2
    level := s.level.setIfInBounds (l / 2) depth
    reason := s.reason.setIfInBounds (l / 2) reason
    trail := s.trail.push l }

/-- Puts a clause under the watch of one of its literals. -/
def watch (s : Search) (l clause : Nat) : Search :=
  { s with watches := s.watches.modify l (·.push clause) }

/-- Makes room for the variables below `n`. -/
def grow (n : Nat) (s : Search) : Search :=
  if n ≤ s.level.size then s
  else
    let more := n - s.level.size
    { s with
      watches := s.watches ++ Array.replicate (2 * more) #[]
      value := s.value ++ Array.replicate (2 * more) 0
      level := s.level ++ Array.replicate more 0
      reason := s.reason ++ Array.replicate more 0
      seen := s.seen ++ Array.replicate more false }

/-- Stores a clause of at least two open literals. -/
def store (s : Search) (ls : Array Nat) : Search :=
  let c := s.clauses.size
  (({ s with clauses := s.clauses.push ls }.watch (ls.getD 0 0) c).watch (ls.getD 1 0) c)

/-- Adds a clause, given as literals without repetition or contradiction, at the bottom level.
Literals that are false there are left out, and a clause that is true there is dropped. -/
def addClause (s : Search) (ls : Array Nat) : Search :=
  if ls.any fun l => s.valueOf l = 1 then s
  else
    let ls := ls.filter fun l => s.valueOf l ≠ 2
    if ls.size = 0 then { s with contradiction := true }
    else if ls.size = 1 then s.assign (ls.getD 0 0) 0
    else s.store ls

/-- The first literal of a clause from a place on that is not false. -/
def findOpen (s : Search) (ls : Array Nat) (i : Nat) : Option Nat :=
  if h : i < ls.size then
    if s.valueOf ls[i] = 2 then findOpen s ls (i + 1) else some i
  else none
termination_by ls.size - i

/-- Writes the literals of a clause in another order. -/
def reorder (s : Search) (clause : Nat) (ls : Array Nat) : Search :=
  { s with clauses := s.clauses.setIfInBounds clause ls }

/-- Puts the clauses of a list from a place on under the watch of a literal. -/
def watchRest (s : Search) (l : Nat) (ws : Array Nat) (i : Nat) : Search :=
  { s with watches := s.watches.modify l (· ++ ws.extract i ws.size) }

/-- Visits the clauses that watch a literal `l` which has become false, from place `i` of the list
`ws` on.  Each finds another literal to watch, or implies its other watched literal, or is in
conflict; in the last case its number is returned. -/
def visit (l : Nat) (ws : Array Nat) (i : Nat) (s : Search) : Search × Option Nat :=
  if h : i < ws.size then
    let c := ws[i]
    let ls := s.clauses.getD c #[]
    let first := ls.getD 0 0
    let other := if first = l then ls.getD 1 0 else first
    let state := s.valueOf other
    if state = 1 then visit l ws (i + 1) (s.watch l c)
    else
      match findOpen s ls 2 with
      | some k =>
        let next := ls.getD k 0
        let ls := ((ls.setIfInBounds 0 other).setIfInBounds 1 next).setIfInBounds k l
        visit l ws (i + 1) ((s.reorder c ls).watch next c)
      | none =>
        if state = 2 then (s.watchRest l ws i, some c)
        else
          let ls := (ls.setIfInBounds 0 other).setIfInBounds 1 l
          visit l ws (i + 1) (((s.reorder c ls).watch l c).assign other (c + 1))
  else (s, none)
termination_by ws.size - i

/-- Propagates the literals of the trail that are not propagated yet, at most `fuel` of them, and
returns a clause in conflict if there is one. -/
def propagate : Nat → Search → Search × Option Nat
  | 0, s => (s, none)
  | fuel + 1, s =>
    if h : s.head < s.trail.size then
      let l := flip s.trail[s.head]
      let ws := s.watches.getD l #[]
      let s := { s with head := s.head + 1, watches := s.watches.setIfInBounds l #[] }
      match visit l ws 0 s with
      | (s, some c) => (s, some c)
      | (s, none) => propagate fuel s
    else (s, none)

/-- Takes back the values of the literals of the trail from its end down to a length. -/
def unassign (s : Search) (length : Nat) : Search :=
  if h : length < s.trail.size then
    let l := s.trail[s.trail.size - 1]
    unassign
      { s with
        value := (s.value.setIfInBounds l 0).setIfInBounds (flip l) 0
        trail := s.trail.pop } length
  else s
termination_by s.trail.size
decreasing_by simp; omega

/-- Goes back to a level. -/
def backTo (s : Search) (depth : Nat) : Search :=
  if depth < s.limits.size then
    let s := s.unassign (s.limits.getD depth 0)
    { s with
      head := s.trail.size
      limits := s.limits.extract 0 depth
      starts := s.starts.extract 0 depth }
  else s

/-- Marks the literals of a clause.  Those of the current level are counted, the others are
collected. -/
def mark (ls : Array Nat) (i : Nat) (skip : Nat) (s : Search) (count : Nat) (out : Array Nat) :
    Search × Nat × Array Nat :=
  if h : i < ls.size then
    let q := ls[i]
    let x := q / 2
    if q = skip || s.seen.getD x false || s.level.getD x 0 = 0 then mark ls (i + 1) skip s count out
    else
      let current := s.level.getD x 0 = s.limits.size
      let s := { s with seen := s.seen.setIfInBounds x true }
      if current then mark ls (i + 1) skip s (count + 1) out
      else mark ls (i + 1) skip s count (out.push q)
  else (s, count, out)
termination_by ls.size - i

/-- Walks down the trail from place `i`, replacing marked literals of the current level by the
clauses that implied them, until one is left.  Returns that literal with the collected ones. -/
def resolve : Nat → Search → Nat → Array Nat → Search × Nat × Array Nat
  | 0, s, _, out => (s, 0, out)
  | i + 1, s, count, out =>
    let p := s.trail.getD i 0
    let x := p / 2
    if s.seen.getD x false then
      let s := { s with seen := s.seen.setIfInBounds x false }
      if count ≤ 1 then (s, p, out)
      else
        let c := s.reason.getD x 0
        let ls := s.clauses.getD (c - 1) #[]
        let (s, count, out) := mark ls 0 p s (count - 1) out
        resolve i s count out
    else resolve i s count out

/-- Takes back the marks of the collected literals. -/
def unmark (s : Search) (ls : Array Nat) : Search :=
  { s with seen := ls.foldl (fun seen q => seen.setIfInBounds (q / 2) false) s.seen }

/-- The place of a literal of the highest level. -/
def highest (s : Search) (ls : Array Nat) : Nat :=
  (List.range ls.size).foldl (fun best i =>
    if s.level.getD (ls.getD best 0 / 2) 0 < s.level.getD (ls.getD i 0 / 2) 0 then i else best) 0

/-- Learns from a clause in conflict: goes back to the highest level at which the learnt clause
leaves one literal open, and makes that literal true. -/
def learn (s : Search) (conflict : Nat) : Search :=
  let (s, count, out) := mark (s.clauses.getD conflict #[]) 0 (2 * s.level.size) s 0 #[]
  let (s, p, out) := resolve s.trail.size s count out
  let s := s.unmark out
  let asserting := flip p
  if out.size = 0 then (s.backTo 0).assign asserting 0
  else
    let k := s.highest out
    let top := out.getD k 0
    let depth := s.level.getD (top / 2) 0
    let out := (out.setIfInBounds k (out.getD 0 0)).setIfInBounds 0 top
    let s := s.backTo depth
    let c := s.clauses.size
    let s := { s with clauses := s.clauses.push (#[asserting] ++ out) }
    ((s.watch asserting c).watch top c).assign asserting (c + 1)

/-- The least variable from `x` on without a value. -/
def nextOpen (s : Search) (x : Nat) : Option Nat :=
  if x < s.level.size then
    if s.valueOf (2 * x) = 0 then some x else nextOpen s (x + 1)
  else none
termination_by s.level.size - x

/-- Opens a level, below whose start all variables smaller than `start` have values. -/
def openLevel (s : Search) (start : Nat) : Search :=
  { s with limits := s.limits.push s.trail.size, starts := s.starts.push start }

/-- The end of a search. -/
inductive Verdict where
  /-- All variables have values and no clause is false. -/
  | model (value : Array UInt8)
  /-- The clauses contradict the assumptions. -/
  | unsat
  /-- The search was given up. -/
  | gaveUp

/-- Searches for at most `fuel` rounds.  A round propagates and then learns from a conflict, takes
the next assumption, or decides the least open variable to the preferred value. -/
def run (preferred : Bool) (assumptions : Array Nat) : Nat → Search → Verdict × Search
  | 0, s => (.gaveUp, s)
  | fuel + 1, s =>
    match propagate (s.level.size + 1) s with
    | (s, some conflict) =>
      if s.limits.size = 0 then (.unsat, { s with contradiction := true })
      else run preferred assumptions fuel (s.learn conflict)
    | (s, none) =>
      if h : s.limits.size < assumptions.size then
        let a := assumptions[s.limits.size]
        match s.valueOf a with
        | 1 => run preferred assumptions fuel (s.openLevel 0)
        | 2 => (.unsat, s)
        | _ => run preferred assumptions fuel ((s.openLevel 0).assign a 0)
      else
        match s.nextOpen (s.starts.getD (s.starts.size - 1) 0) with
        | none => (.model s.value, s)
        | some x =>
          let decision := 2 * x + (!preferred).toNat
          run preferred assumptions fuel ((s.openLevel x).assign decision 0)

/-- Solves under assumptions and goes back to the bottom level.  The number of rounds is limited by
the number of valuations, which learning keeps a search from visiting twice. -/
def solve (preferred : Bool) (s : Search) (assumptions : Array Nat) : Verdict × Search :=
  if s.contradiction then (.unsat, s)
  else
    let (verdict, s) := run preferred assumptions (1 <<< (s.level.size + 8)) s
    (verdict, s.backTo 0)

end Search

/-- The literals of a clause, each once and in order; nothing if the clause holds a literal with
its negation. -/
def clauseCodes? (c : Clause) : Option (Array Nat) :=
  let ls := Lit.sortDedup c
  if ls.any fun l => ls.contains l.not then none else some (ls.map Lit.code).toArray

/-- One more than the greatest variable of some literals, and at least `n`. -/
def varBound (n : Nat) (ls : List Lit) : Nat := ls.foldl (fun n l => max n (l.var + 1)) n

/-- Receives a clause at the bottom level. -/
def Search.receive (s : Search) (c : Clause) : Search :=
  let s := s.grow (varBound 0 c)
  match clauseCodes? c with
  | none => s
  | some ls => s.addClause ls

/-- The verdict on the clauses received so far under assumptions, with a preferred value for
variables.  What was learnt is kept. -/
def Search.ask (preferred : Bool) (s : Search) (assumptions : List Lit) : Verdict × Search :=
  (s.grow (varBound 0 assumptions)).solve preferred (assumptions.map Lit.code).toArray

end WeightedCsp.Sat

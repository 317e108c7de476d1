import WeightedCsp.Model

/-!
# Magic squares

The numbers from one to `n²` are put into a square of side `n`, each once, so that every row, every
column and both diagonals have the same sum.  Distinctness is hard; the sums are hard, or soft with
a common weight.
-/

namespace WeightedCsp.MagicSquare

/-- Why there is no model of a square. -/
inductive Error where
  /-- The square has no cell. -/
  | noCell
  /-- The number of cells is no machine integer. -/
  | tooLarge
  /-- A part of the model cannot be built. -/
  | model (e : ModelError)
deriving DecidableEq, Repr

/-- The wording of the error, outermost part first. -/
def Error.chain : Error → List String
  | .noCell => ["a magic square needs at least one cell"]
  | .tooLarge => ["square too large", "out of range integral type conversion attempted"]
  | .model e => [e.message]

/-- The name of the cell in a row and a column. -/
def cellName (row col : Nat) : String := "m_r" ++ row.repr ++ "_c" ++ col.repr

/-- The common sum of the lines of a square of side `n`: the sum of all numbers, divided among `n`
rows. -/
def lineSum (n : Nat) : Checked Int := do
  let square ← Word.mul n n
  Word.div (← Word.mul n (← Word.add square 1)) 2

/-- A line of cells, given as pairs of row and column. -/
structure Line where
  name : String
  cells : List (Nat × Nat)
deriving DecidableEq, Repr

/-- The rows, the columns and the two diagonals. -/
def lines (n : Nat) : List Line :=
  let side := List.range n
  side.map (fun r => ⟨"row" ++ r.repr, side.map fun c => (r, c)⟩) ++
    side.map (fun c => ⟨"col" ++ c.repr, side.map fun r => (r, c)⟩) ++
    [⟨"diag", side.map fun i => (i, i)⟩, ⟨"anti", side.map fun i => (i, n - 1 - i)⟩]

/-- All cells, row by row. -/
def cells (n : Nat) : List (Nat × Nat) :=
  (List.range n).flatMap fun r => (List.range n).map fun c => (r, c)

/-- The variable of a cell. -/
def cellVariable (domain : Domain) (cell : Nat × Nat) : Variable :=
  ⟨cellName cell.1 cell.2, domain⟩

/-- Registers the cells. -/
def addCells (domain : Domain) : List (Nat × Nat) → Registering Unit
  | [] => return ()
  | cell :: rest => do
    let _ ← Model.newVariable (cellName cell.1 cell.2) domain
    addCells domain rest

/-- Registers the sums of lines. -/
def addLines (domain : Domain) (weight : Weight) (sum : Int) : List Line → Registering Unit
  | [] => return ()
  | line :: rest => do
    let terms := line.cells.map fun cell => ⟨1, cellVariable domain cell⟩
    let c ← Failure.ofExcept (Constraint.linear line.name weight terms (some .eq) sum)
    Model.addConstraint c
    addLines domain weight sum rest

/-- A part of the model. -/
def building {α : Type} (x : Registering α) : Step Error Model α := x.mapError .model

/-- Registers what makes a square of side `n`, with line sums of the given weight. -/
def register (n : Nat) (weight : Weight) : Step Error Model Unit := do
  if n = 0 then Step.fail .noCell
  let count ← (Word.mulSize n n : Checked Nat)
  if Word.greatest < count then Step.fail .tooLarge
  let domain ← building (Failure.ofExcept (Domain.range 1 count))
  building (addCells domain (cells n))
  let all := (cells n).map (cellVariable domain)
  let distinct ← building (Failure.ofExcept (Constraint.allDifferent "distinct" .hard all))
  building (Model.addConstraint distinct)
  let sum ← (lineSum n : Checked Int)
  building (addLines domain weight sum (lines n))

/-- The model of a square of side `n`, with line sums of the given weight. -/
def model (n : Nat) (weight : Weight) : Except (Failure Error) Model :=
  (register n weight).build .empty

end WeightedCsp.MagicSquare

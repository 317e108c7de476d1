import WeightedCsp.Encoding.Totalizer

/-!
# Pseudo-Boolean constraints

A bound on a sum of literals with arbitrary integer weights is brought into a normal form: each
variable once, in ascending order, with a positive weight on the variable or its negation.  The
normal form is trivially true, trivially false, or encoded with a totalizer.  A lower bound is an
upper bound on the negated weights.
-/

namespace WeightedCsp.PseudoBoolean

/-- An upper bound on a sum of literals in normal form. -/
inductive Normal where
  /-- Every valuation satisfies the bound. -/
  | tautology
  /-- No valuation satisfies the bound. -/
  | unsat
  /-- The sum of the positive weights of true literals is at most the bound. -/
  | atMost (lits : List WeightedLit) (bound : Nat)
deriving DecidableEq, Repr

/-- A number that has to fit. -/
def fitting : Option Int → Except (Failure EncodingError) Int
  | some v => .ok v
  | none => .error (.error .overflow)

/-- Adds to the coefficient of a variable, in a list with ascending variables. -/
def addCoeff (var : Nat) (w : Int) :
    List (Nat × Int) → Except (Failure EncodingError) (List (Nat × Int))
  | [] => do return [(var, ← fitting (Word.add? 0 w))]
  | (x, c) :: rest =>
    if var = x then do return (x, ← fitting (Word.add? c w)) :: rest
    else if var < x then do return (var, ← fitting (Word.add? 0 w)) :: (x, c) :: rest
    else do return (x, c) :: (← addCoeff var w rest)

/-- Subtracts from the coefficient of a variable, in a list with ascending variables. -/
def subCoeff (var : Nat) (w : Int) :
    List (Nat × Int) → Except (Failure EncodingError) (List (Nat × Int))
  | [] => do return [(var, ← fitting (Word.sub? 0 w))]
  | (x, c) :: rest =>
    if var = x then do return (x, ← fitting (Word.sub? c w)) :: rest
    else if var < x then do return (var, ← fitting (Word.sub? 0 w)) :: (x, c) :: rest
    else do return (x, c) :: (← subCoeff var w rest)

/-- Collects the coefficient of each variable and the constant that negated literals leave:
`w·¬x = w - w·x`. -/
def collect : List (Nat × Int) → Int → List (Lit × Int) →
    Except (Failure EncodingError) (List (Nat × Int) × Int)
  | coeffs, offset, [] => .ok (coeffs, offset)
  | coeffs, offset, (l, w) :: rest =>
    if l.neg then do
      let coeffs ← subCoeff l.var w coeffs
      let offset ← fitting (Word.add? offset w)
      collect coeffs offset rest
    else do
      let coeffs ← addCoeff l.var w coeffs
      collect coeffs offset rest

/-- Makes every weight positive: a negative coefficient goes to the negated variable, and its
value to the constant. -/
def orient : Int → List (Nat × Int) → Except (Failure EncodingError) (List (Lit × Int) × Int)
  | offset, [] => .ok ([], offset)
  | offset, (x, c) :: rest =>
    if 0 < c then do
      let (out, offset) ← orient offset rest
      return ((Lit.ofVar x false, c) :: out, offset)
    else if c < 0 then do
      let offset ← fitting (Word.add? offset c)
      let w ← (Word.neg c : Checked Int)
      let (out, offset) ← orient offset rest
      return ((Lit.ofVar x true, w) :: out, offset)
    else orient offset rest

/-- The normal form of an upper bound. -/
def normalize (lits : List (Lit × Int)) (bound : Int) : Except (Failure EncodingError) Normal := do
  let (coeffs, offset) ← collect [] 0 lits
  let (out, offset) ← orient offset coeffs
  let bound ← fitting (Word.sub? bound offset)
  if bound < 0 then return .unsat
  let sum ← fitting (Word.sum? (out.map (·.2)))
  if sum ≤ bound then return .tautology
  return .atMost (out.map fun (l, w) => (l, w.toNat)) bound.toNat

/-- Encodes that the weighted sum of the true literals is at most the bound. -/
def encodeAtMost (lits : List (Lit × Int)) (bound : Int) : Encoder EncodingError Unit := do
  match ← (normalize lits bound : Except (Failure EncodingError) Normal) with
  | .tautology => return ()
  | .unsat => Encoder.addClause []
  | .atMost lits bound => do
    let t ← (Totalizer.ofInputs lits).encode bound
    let units ← (Failure.ofExcept (t.enforce bound) : Except (Failure EncodingError) (List Lit))
    Encoder.addClauses (units.map fun l => [l])

/-- The same literals with opposite weights. -/
def negateWeights : List (Lit × Int) → Checked (List (Lit × Int))
  | [] => .ok []
  | (l, w) :: rest => do
    let w ← Word.neg w
    return (l, w) :: (← negateWeights rest)

/-- Encodes that the weighted sum of the true literals is at least the bound. -/
def encodeAtLeast (lits : List (Lit × Int)) (bound : Int) : Encoder EncodingError Unit := do
  let lits ← (negateWeights lits : Checked (List (Lit × Int)))
  let bound ← (fitting (Word.neg? bound) : Except (Failure EncodingError) Int)
  encodeAtMost lits bound

/-! ### Meaning -/

/-- The weighted sum of the true literals. -/
def total (v : Valuation) (lits : List (Lit × Int)) : Int :=
  lits.foldr (fun (l, w) n => (if v.lit l then w else 0) + n) 0

end WeightedCsp.PseudoBoolean

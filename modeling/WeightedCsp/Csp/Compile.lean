import WeightedCsp.Ascending
import WeightedCsp.Csp.Expr
import WeightedCsp.Encoding.Order
import WeightedCsp.Encoding.PseudoBoolean

/-!
# Compiling expressions to clauses

Integer variables are order encoded.  A comparison of at most one variable is an atom over its
order literals; a comparison of several becomes a pseudo-Boolean bound on the steps between
values.  Formulas are compiled under a polarity, which negations turn and labels leave as it is.
Below the top of a formula, a disjunction or conjunction of several atoms is named by a fresh
literal that implies it; implication in this one direction is enough, because the polarity is
known at every comparison.

The compiler's tables hold the encoded variables and the literals that stand for `x = v`.  They
only grow, and a log of what was entered lets a failed batch be taken back (`Tables.rollback`).
-/

namespace WeightedCsp

/-- Why an expression cannot be compiled. -/
inductive CompileError where
  /-- A variable was never declared. -/
  | undeclaredVariable (name : String)
  /-- A variable is declared again with other values. -/
  | redeclared (name : String)
  /-- A variable is declared without values. -/
  | emptyDomain (name : String)
  /-- An expression stands where its kind has no place. -/
  | unsupported (text : String)
  /-- An encoding failed. -/
  | encoding (e : EncodingError)
deriving DecidableEq, Repr

/-- The wording of a compile error. -/
def CompileError.message : CompileError → String
  | .undeclaredVariable name => s!"undeclared variable `{name}`"
  | .redeclared name => s!"variable `{name}` redeclared with a different domain"
  | .emptyDomain name => s!"variable `{name}` has an empty domain"
  | .unsupported text => "unsupported expression: " ++ text
  | .encoding e => e.message

/-- The keys of the entries that were made since the log was opened. -/
structure Undo where
  /-- The names of encoded variables. -/
  vars : List String := []
  /-- The names and values of equalities. -/
  atoms : List (String × Int) := []
deriving DecidableEq, Repr

/-- What a compiler knows: clauses and fresh variables, encoded variables, the atoms that stand for
equalities, and a log of the entries that it made. -/
structure Tables where
  /-- The clauses made so far and the next fresh variable. -/
  cnf : Cnf
  /-- The encoded variables by name, the newest first. -/
  vars : List (String × OrderVar)
  /-- The atoms for `name = value`, the newest first. -/
  atoms : List ((String × Int) × Atom)
  /-- The entries to take back if the batch fails. -/
  undo : Undo := {}

/-- The table without the entry of a key. -/
def removeKey {κ α : Type} [DecidableEq κ] (entries : List (κ × α)) (key : κ) : List (κ × α) :=
  entries.filter (·.1 ≠ key)

/-- Takes back the entries in the log. -/
def Tables.rollback (t : Tables) : Tables :=
  { t with
    vars := t.undo.vars.foldl removeKey t.vars
    atoms := t.undo.atoms.foldl removeKey t.atoms
    undo := {} }

/-- A step of the compiler. -/
abbrev Compiler : Type → Type := Step CompileError Tables

namespace Compiler

/-- Runs an encoder on the clauses of the tables. -/
def emit {α : Type} (x : Encoder EncodingError α) : Compiler α
  | ⟨cnf, vars, atoms, undo⟩ =>
    match x cnf with
    | .ok a cnf => .ok a ⟨cnf, vars, atoms, undo⟩
    | .error e cnf => .error (e.map .encoding) ⟨cnf, vars, atoms, undo⟩

/-- The encoded variable of that name. -/
def lookup (name : String) : Compiler OrderVar := fun t =>
  match t.vars.lookup name with
  | some x => .ok x t
  | none => .error (.error (.undeclaredVariable name)) t

/-- Enters an encoded variable, and its name in the log. -/
def addVariable (name : String) (x : OrderVar) : Compiler Unit := fun t =>
  .ok () { t with
    vars := (name, x) :: t.vars
    undo := { t.undo with vars := t.undo.vars ++ [name] } }

/-- Enters an atom for an equality, and its key in the log. -/
def addAtom (name : String) (value : Int) (a : Atom) : Compiler Unit := fun t =>
  .ok () { t with
    atoms := ((name, value), a) :: t.atoms
    undo := { t.undo with atoms := t.undo.atoms ++ [(name, value)] } }

/-- Adds the disjunction of atoms. -/
def clause (atoms : List Atom) : Compiler Unit := emit (Atom.addClause atoms)

/-- Adds disjunctions of atoms one after the other. -/
def clauses : List (List Atom) → Compiler Unit
  | [] => return ()
  | c :: cs => do
    clause c
    clauses cs

/-! ### Statements -/

/-- Declares a variable.  A second declaration with the same values has no effect. -/
def declare (name : String) (values : List Int) : Compiler Unit := do
  let values := Ascending.ofList values
  if values.isEmpty then Step.fail (.emptyDomain name)
  match (← get).vars.lookup name with
  | some x => if x.values ≠ values then Step.fail (.redeclared name)
  | none => do
    let x ← emit (OrderVar.encode values)
    addVariable name x

/-- The atom for `name = value`, made at its first use. -/
def equality (name : String) (value : Int) : Compiler Atom := do
  match (← get).atoms.lookup (name, value) with
  | some a => return a
  | none => do
    let x ← lookup name
    let a ← emit (x.eqAtom value)
    addAtom name value a
    return a

/-- The atoms for a variable taking each of the given values. -/
def equalities (name : String) : List Int → Compiler (List (Int × Atom))
  | [] => return []
  | v :: vs => do
    let a ← equality name v
    return (v, a) :: (← equalities name vs)

/-- The atoms for each variable taking each of its values. -/
def allEqualities : List String → Compiler (List (Int × Atom))
  | [] => return []
  | name :: names => do
    let x ← lookup name
    let own ← equalities name x.values
    return own ++ (← allEqualities names)

/-- No two of the atoms are true. -/
def atMostOne : List Atom → List (List Atom)
  | [] => []
  | a :: rest => rest.map (fun b => [a.not, b.not]) ++ atMostOne rest

/-- The atoms of one value. -/
def atomsOf (v : Int) (atoms : List (Int × Atom)) : List Atom :=
  (atoms.filter fun a => a.1 = v).map (·.2)

/-- Each value is taken by at most one of the variables. -/
def allDifferent (names : List String) : Compiler Unit := do
  let atoms ← allEqualities names
  let values := Ascending.ofList (atoms.map (·.1))
  clauses (values.flatMap fun v => atMostOne (atomsOf v atoms))

/-! ### Comparisons -/

/-- Adds a coefficient to the term of its variable, or as a new last term. -/
def mergeTerm (c : Int) (name : String) : List NamedTerm → Checked (List NamedTerm)
  | [] => return [(c, name)]
  | (d, x) :: rest =>
    if x = name then do return (← Word.add d c, x) :: rest
    else do return (d, x) :: (← mergeTerm c name rest)

/-- Merges terms one after the other. -/
def mergeAll : List NamedTerm → List NamedTerm → Checked (List NamedTerm)
  | merged, [] => return merged
  | merged, (c, x) :: rest => do mergeAll (← mergeTerm c x merged) rest

/-- The terms with each variable once, without those of coefficient zero. -/
def mergeTerms (terms : List NamedTerm) : Checked (List NamedTerm) := do
  return (← mergeAll [] terms).filter fun t => t.1 ≠ 0

/-- A comparison `c·x op rhs` as `c·x ≤ rhs` with other constants. -/
def asAtMost (c : Int) (op : Comparator) (rhs : Int) : Checked (Int × Int) :=
  match op with
  | .eq => return (c, rhs)
  | .le => return (c, rhs)
  | .lt => do return (c, ← Word.sub rhs 1)
  | .ge => do return (← Word.neg c, ← Word.neg rhs)
  | .gt => do return (← Word.neg c, ← Word.sub (← Word.neg rhs) 1)

/-- The atom for `c·x ≤ rhs`. -/
def boundAtom (x : OrderVar) (c rhs : Int) : Checked Atom := do
  if 0 < c then return x.le (← Word.divFloor rhs c)
  else x.ge (← Word.divCeil rhs c)

/-- The atom for a comparison of one variable. -/
def termAtom (c : Int) (name : String) (op : Comparator) (rhs : Int) : Compiler Atom := do
  if op = .eq then
    if (← (Word.rem rhs c : Checked Int)) = 0 then
      equality name (← (Word.div rhs c : Checked Int))
    else return .false
  else
    let (c, rhs) ← (asAtMost c op rhs : Checked (Int × Int))
    let x ← lookup name
    (boundAtom x c rhs : Checked Atom)

/-- The atom for a constant. -/
def constAtom (b : Bool) : Atom := if b then .true else .false

/-- An atom, or its opposite. -/
def signed (positive : Bool) (a : Atom) : Atom := if positive then a else a.not

/-- The weighted literals and the constant of a sum of encoded variables, after `offset`. -/
def weightedSum : Int → List NamedTerm → Compiler (List (Lit × Int) × Int)
  | offset, [] => return ([], offset)
  | offset, (c, name) :: rest => do
    let x ← lookup name
    let steps ← (x.weightedLits : Checked (List (Lit × Int)))
    let offset ← (do Word.add offset (← Word.mul c x.lb) : Checked Int)
    let scaled ←
      (steps.mapM fun (l, w) => do return (l, ← Word.mul c w) : Checked (List (Lit × Int)))
    let (others, offset) ← weightedSum offset rest
    return (scaled ++ others, offset)

/-- Encodes a comparison of several variables. -/
def sum (terms : List NamedTerm) (op : Comparator) (rhs : Int) : Compiler Unit := do
  let (lits, offset) ← weightedSum 0 terms
  let rhs ← (Word.sub rhs offset : Checked Int)
  match op with
  | .le => emit (PseudoBoolean.encodeAtMost lits rhs)
  | .lt => do
    let rhs ← (Word.sub rhs 1 : Checked Int)
    emit (PseudoBoolean.encodeAtMost lits rhs)
  | .ge => emit (PseudoBoolean.encodeAtLeast lits rhs)
  | .gt => do
    let rhs ← (Word.add rhs 1 : Checked Int)
    emit (PseudoBoolean.encodeAtLeast lits rhs)
  | .eq => do
    emit (PseudoBoolean.encodeAtMost lits rhs)
    emit (PseudoBoolean.encodeAtLeast lits rhs)

/-- Fails for an expression that has no place at the top. -/
def misplaced (e : Expr) : Compiler Unit := do
  let text ← (e.text : Checked String)
  Step.fail (.unsupported text)

/-- Fails for an expression that has no place inside a formula. -/
def nested (e : Expr) : Compiler Atom := do
  let text ← (e.text : Checked String)
  Step.fail (.unsupported ("nested " ++ text))

/-- Demands a comparison, or its negation. -/
def demand (terms : List NamedTerm) (op : Comparator) (rhs : Int) (positive : Bool) :
    Compiler Unit := do
  match ← (mergeTerms terms : Checked (List NamedTerm)) with
  | [] => clause [signed positive (constAtom (op.holds 0 rhs))]
  | [(c, name)] => do
    let a ← termAtom c name op rhs
    clause [signed positive a]
  | merged =>
    if positive then sum merged op rhs
    else
      match op.negate? with
      | some op => sum merged op rhs
      | none => misplaced (.linear terms op rhs)

/-- The atom for a comparison of at most one variable, or its negation. -/
def comparison (terms : List NamedTerm) (op : Comparator) (rhs : Int) (positive : Bool) :
    Compiler Atom := do
  match ← (mergeTerms terms : Checked (List NamedTerm)) with
  | [] => return signed positive (constAtom (op.holds 0 rhs))
  | [(c, name)] => do return signed positive (← termAtom c name op rhs)
  | _ => nested (.linear terms op rhs)

/-! ### Formulas -/

/-- An atom that implies all of the given ones. -/
def nameAll (atoms : List Atom) : Compiler Atom :=
  if .false ∈ atoms then return .false
  else
    match atoms.filter (· ≠ .true) with
    | [] => return .true
    | [a] => return a
    | rest => do
      let t ← emit Encoder.newLit
      clauses (rest.map fun a => [.lit t.not, a])
      return .lit t

/-- An atom that implies one of the given ones. -/
def nameAny (atoms : List Atom) : Compiler Atom :=
  if .true ∈ atoms then return .true
  else
    match atoms.filter (· ≠ .false) with
    | [] => return .false
    | [a] => return a
    | rest => do
      let t ← emit Encoder.newLit
      clause (.lit t.not :: rest)
      return .lit t

/-- The expression is a disjunction under the polarity.  Under the opposite polarity it is a
conjunction then. -/
@[simp]
def isAny (positive : Bool) : Expr → Bool
  | .or _ => positive
  | .imp _ _ => positive
  | .and _ => !positive
  | _ => false

mutual

/-- An atom that implies the expression, or its negation if `positive` is false.  Connectives are
named by fresh literals. -/
def litOf : Bool → Expr → Compiler Atom
  | positive, .labeled _ e => litOf positive e
  | positive, .not e => litOf (!positive) e
  | positive, .linear terms op rhs => comparison terms op rhs positive
  | true, .and es => do nameAll (← conjuncts true (.and es))
  | false, .or es => do nameAll (← conjuncts false (.or es))
  | false, .imp a b => do nameAll (← conjuncts false (.imp a b))
  | true, .or es => do nameAny (← disjuncts true (.or es))
  | false, .and es => do nameAny (← disjuncts false (.and es))
  | true, .imp a b => do nameAny (← disjuncts true (.imp a b))
  | _, .int name values => nested (.int name values)
  | _, .allDifferent names => nested (.allDifferent names)
termination_by _ e => (sizeOf e, 1)

-- A connective is taken apart where it is of the kind that is collected, and goes through `litOf`,
-- which comes back to the other collector, where it is not.
/-- Atoms whose disjunction implies the expression, or its negation if `positive` is false. -/
def disjuncts : Bool → Expr → Compiler (List Atom)
  | positive, .labeled _ e => disjuncts positive e
  | positive, .not e => disjuncts (!positive) e
  | true, .or es => allDisjuncts true es
  | false, .and es => allDisjuncts false es
  | true, .imp a b => do return (← disjuncts false a) ++ (← disjuncts true b)
  | false, .or es => do return [← litOf false (.or es)]
  | true, .and es => do return [← litOf true (.and es)]
  | false, .imp a b => do return [← litOf false (.imp a b)]
  | positive, .linear terms op rhs => do return [← litOf positive (.linear terms op rhs)]
  | positive, .int name values => do return [← litOf positive (.int name values)]
  | positive, .allDifferent names => do return [← litOf positive (.allDifferent names)]
termination_by positive e => (sizeOf e, if isAny positive e then 0 else 2)

/-- Atoms whose disjunction implies one of the expressions, or of their negations. -/
def allDisjuncts (positive : Bool) : List Expr → Compiler (List Atom)
  | [] => return []
  | e :: es => do return (← disjuncts positive e) ++ (← allDisjuncts positive es)
termination_by es => (sizeOf es, 0)

/-- Atoms whose conjunction implies the expression, or its negation if `positive` is false. -/
def conjuncts : Bool → Expr → Compiler (List Atom)
  | positive, .labeled _ e => conjuncts positive e
  | positive, .not e => conjuncts (!positive) e
  | true, .and es => allConjuncts true es
  | false, .or es => allConjuncts false es
  | false, .imp a b => do return (← conjuncts true a) ++ (← conjuncts false b)
  | false, .and es => do return [← litOf false (.and es)]
  | true, .or es => do return [← litOf true (.or es)]
  | true, .imp a b => do return [← litOf true (.imp a b)]
  | positive, .linear terms op rhs => do return [← litOf positive (.linear terms op rhs)]
  | positive, .int name values => do return [← litOf positive (.int name values)]
  | positive, .allDifferent names => do return [← litOf positive (.allDifferent names)]
termination_by positive e => (sizeOf e, if isAny (!positive) e then 0 else 2)

/-- Atoms whose conjunction implies all the expressions, or all their negations. -/
def allConjuncts (positive : Bool) : List Expr → Compiler (List Atom)
  | [] => return []
  | e :: es => do return (← conjuncts positive e) ++ (← allConjuncts positive es)
termination_by es => (sizeOf es, 0)

end

mutual

/-- Demands an expression at the top, or its negation if `positive` is false. -/
def formula : Bool → Expr → Compiler Unit
  | positive, .labeled _ e => formula positive e
  | positive, .not e => formula (!positive) e
  | true, .and es => formulas true es
  | false, .or es => formulas false es
  | false, .imp a b => do
    formula true a
    formula false b
  | true, .or es => do clause (← disjuncts true (.or es))
  | false, .and es => do clause (← disjuncts false (.and es))
  | true, .imp a b => do clause (← disjuncts true (.imp a b))
  | positive, .linear terms op rhs => demand terms op rhs positive
  | _, .int name values => misplaced (.int name values)
  | _, .allDifferent names => misplaced (.allDifferent names)

/-- Demands several expressions at the top, or all their negations. -/
def formulas (positive : Bool) : List Expr → Compiler Unit
  | [] => return ()
  | e :: es => do
    formula positive e
    formulas positive es

end

/-- Compiles an expression. -/
def compile : Expr → Compiler Unit
  | .int name values => declare name values
  | .allDifferent names => allDifferent names
  | .labeled _ e => compile e
  | .linear terms op rhs => formula true (.linear terms op rhs)
  | .not e => formula true (.not e)
  | .and es => formula true (.and es)
  | .or es => formula true (.or es)
  | .imp a b => formula true (.imp a b)

end Compiler

end WeightedCsp

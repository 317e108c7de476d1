import WeightedCsp.Comparator

/-!
# Expressions over integer variables

The language that a session accepts: declarations of integer variables, linear comparisons, and
the Boolean connectives over them.  `Expr.Holds` is the meaning of an expression under an
assignment of integers to names, and `Expr.text` its written form.
-/

namespace WeightedCsp

/-- `coeff * name` as a pair. -/
abbrev NamedTerm : Type := Int × String

/-- An expression. -/
inductive Expr where
  /-- Declares a variable over the given values. -/
  | int (name : String) (values : List Int)
  /-- A weighted sum of variables compares with a constant. -/
  | linear (terms : List NamedTerm) (op : Comparator) (rhs : Int)
  /-- Negation. -/
  | not (e : Expr)
  /-- Conjunction. -/
  | and (es : List Expr)
  /-- Disjunction. -/
  | or (es : List Expr)
  /-- Implication. -/
  | imp (premise conclusion : Expr)
  /-- The variables take pairwise different values. -/
  | allDifferent (names : List String)
  /-- An expression with a note for its reader. -/
  | labeled (label : String) (e : Expr)

namespace Expr

/-- Declares a variable over the integers from `lb` to `ub`. -/
def intRange (name : String) (lb ub : Int) : Expr :=
  .int name ((List.range (ub - lb + 1).toNat).map fun (i : Nat) => lb + i)

/-- Compares one variable with a constant. -/
def cmp (name : String) (op : Comparator) (value : Int) : Expr := .linear [(1, name)] op value

/-- `name ≤ value`. -/
def le (name : String) (value : Int) : Expr := cmp name .le value

/-- `name ≥ value`. -/
def ge (name : String) (value : Int) : Expr := cmp name .ge value

/-- `name = value`. -/
def eq (name : String) (value : Int) : Expr := cmp name .eq value

/-- The expression without the labels around it. -/
def unlabeled : Expr → Expr
  | .labeled _ e => e.unlabeled
  | e => e

/-! ### Written form -/

/-- Each value is one above the value before it. -/
def contiguous : List Int → Checked Bool
  | a :: b :: rest => do
    if b = (← Word.add a 1) then contiguous (b :: rest) else return false
  | _ => return true

/-- The name of a comparison in the written form. -/
def opText : Comparator → String
  | .eq => "eq"
  | .le => "le"
  | .lt => "lt"
  | .ge => "ge"
  | .gt => "gt"

/-- The left side of a comparison in the written form. -/
def sumText : List NamedTerm → String
  | [] => "0"
  | [(c, x)] => if c = 1 then x else "(add (mul " ++ c.repr ++ " " ++ x ++ "))"
  | terms =>
    "(add " ++ " ".intercalate (terms.map fun (c, x) => "(mul " ++ c.repr ++ " " ++ x ++ ")") ++ ")"

/-- A declaration in the written form: the ends of an interval, or all values. -/
def intText (name : String) (values : List Int) : Checked String := do
  let isRange ← contiguous values
  match values.head?, values.getLast? with
  | some lb, some ub =>
    if isRange then return "(int " ++ name ++ " " ++ lb.repr ++ " " ++ ub.repr ++ ")"
    else return "(int " ++ name ++ " (" ++ " ".intercalate (values.map Int.repr) ++ "))"
  | _, _ => return "(int " ++ name ++ " ())"

mutual

/-- The written form. -/
def text : Expr → Checked String
  | .int name values => intText name values
  | .linear terms op rhs =>
    return "(" ++ opText op ++ " " ++ sumText terms ++ " " ++ rhs.repr ++ ")"
  | .not e => do return "(not " ++ (← e.text) ++ ")"
  | .and es => do return "(and " ++ " ".intercalate (← texts es) ++ ")"
  | .or es => do return "(or " ++ " ".intercalate (← texts es) ++ ")"
  | .imp a b => do return "(imp " ++ (← a.text) ++ " " ++ (← b.text) ++ ")"
  | .allDifferent names => return "(alldifferent " ++ " ".intercalate names ++ ")"
  | .labeled label e => do return (← e.text) ++ " ; " ++ label

/-- The written forms of several expressions. -/
def texts : List Expr → Checked (List String)
  | [] => return []
  | e :: es => do return (← e.text) :: (← texts es)

end

/-! ### Meaning -/

/-- The weighted sum of named variables. -/
def total (value : String → Int) (terms : List NamedTerm) : Int :=
  terms.foldr (fun (c, x) n => c * value x + n) 0

mutual

/-- The expression is true of the values.  A declaration says that the variable takes one of its
values. -/
def Holds (value : String → Int) : Expr → Prop
  | .int name values => value name ∈ values
  | .linear terms op rhs => op.Holds (total value terms) rhs
  | .not e => ¬ Holds value e
  | .and es => AllHold value es
  | .or es => SomeHolds value es
  | .imp a b => Holds value a → Holds value b
  | .allDifferent names => names.Pairwise fun x y => value x ≠ value y
  | .labeled _ e => Holds value e

/-- All the expressions are true of the values. -/
def AllHold (value : String → Int) : List Expr → Prop
  | [] => True
  | e :: es => Holds value e ∧ AllHold value es

/-- One of the expressions is true of the values. -/
def SomeHolds (value : String → Int) : List Expr → Prop
  | [] => False
  | e :: es => Holds value e ∨ SomeHolds value es

end

end Expr

end WeightedCsp

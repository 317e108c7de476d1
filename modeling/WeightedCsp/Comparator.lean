import WeightedCsp.Word

/-!
# Comparisons and how far they are missed

A comparison `lhs op rhs` of machine integers holds or is missed by a certain amount: the least
change of the left side that would make it hold.  Amounts are computed in machine arithmetic, and
the operations with a question mark answer `none` where an amount does not fit.
-/

namespace WeightedCsp

/-- A comparison operator. -/
inductive Comparator where
  | eq
  | le
  | lt
  | ge
  | gt
deriving DecidableEq, Repr

namespace Comparator

/-- The usual sign. -/
def text : Comparator → String
  | eq => "="
  | le => "<="
  | lt => "<"
  | ge => ">="
  | gt => ">"

/-- The comparison is true. -/
def Holds : Comparator → Int → Int → Prop
  | eq, a, b => a = b
  | le, a, b => a ≤ b
  | lt, a, b => a < b
  | ge, a, b => b ≤ a
  | gt, a, b => b < a

instance (op : Comparator) (a b : Int) : Decidable (op.Holds a b) := by
  cases op <;> unfold Holds <;> infer_instance

/-- The comparison is true, as a test. -/
def holds (op : Comparator) (a b : Int) : Bool := decide (op.Holds a b)

/-- The comparison that is true exactly when this one is not, where there is one. -/
def negate? : Comparator → Option Comparator
  | eq => none
  | le => some gt
  | lt => some ge
  | ge => some lt
  | gt => some le

/-- `a - b + extra`, or zero if that is negative. -/
def excess? (a b extra : Int) : Option Int := do
  let d ← Word.sub? a b
  let e ← Word.add? d extra
  return max e 0

/-- The amount by which `lhs op rhs` is missed. -/
def violation? (op : Comparator) (lhs rhs : Int) : Option Int :=
  match op with
  | eq => do Word.abs? (← Word.sub? lhs rhs)
  | le => excess? lhs rhs 0
  | lt => excess? lhs rhs 1
  | ge => excess? rhs lhs 0
  | gt => excess? rhs lhs 1

/-- The greatest amount by which `lhs op rhs` is missed for a left side from `lo` to `hi`. -/
def maxViolation? (op : Comparator) (rhs lo hi : Int) : Option Int :=
  match op with
  | eq => do
    let above ← le.violation? hi rhs
    let below ← ge.violation? lo rhs
    return max above below
  | le => le.violation? hi rhs
  | lt => lt.violation? hi rhs
  | ge => ge.violation? lo rhs
  | gt => gt.violation? lo rhs

/-- `maxViolation?` with the greatest word in place of an amount that does not fit. -/
def maxViolation (op : Comparator) (rhs lo hi : Int) : Int :=
  (op.maxViolation? rhs lo hi).getD Word.greatest

theorem holds_iff {op : Comparator} {a b : Int} : op.holds a b = true ↔ op.Holds a b := by
  simp [holds]

end Comparator

end WeightedCsp

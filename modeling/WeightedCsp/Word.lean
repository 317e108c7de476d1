import WeightedCsp.Fault

/-!
# Machine integers

Quantities of a model are integers that fit 64 bits.  They are kept as `Int` (signed) and `Nat`
(sizes and totals), and every operation on them is exact or refused: the forms with a question mark
answer `none` when the exact result does not fit, the plain forms fault.  So a result that is
returned is always the mathematical one, and no result ever wraps around.
-/

namespace WeightedCsp.Word

/-- The least signed 64-bit integer. -/
def least : Int := -9223372036854775808

/-- The greatest signed 64-bit integer. -/
def greatest : Int := 9223372036854775807

/-- The number fits a signed 64-bit word. -/
def InRange (x : Int) : Prop := least ≤ x ∧ x ≤ greatest

instance (x : Int) : Decidable (InRange x) := inferInstanceAs (Decidable (_ ∧ _))

/-- The number itself, if it fits. -/
def fit? (x : Int) : Option Int := if InRange x then some x else none

/-- The number itself, if it fits, and otherwise the given fault. -/
def fit (t : Fault) (x : Int) : Checked Int := if InRange x then .ok x else .error t

/-- The sum, if it fits. -/
def add? (a b : Int) : Option Int := fit? (a + b)

/-- The difference, if it fits. -/
def sub? (a b : Int) : Option Int := fit? (a - b)

/-- The product, if it fits. -/
def mul? (a b : Int) : Option Int := fit? (a * b)

/-- The opposite, if it fits. -/
def neg? (a : Int) : Option Int := fit? (-a)

/-- The absolute value, if it fits. -/
def abs? (a : Int) : Option Int := fit? a.natAbs

/-- The sum. -/
def add (a b : Int) : Checked Int := fit .add (a + b)

/-- The difference. -/
def sub (a b : Int) : Checked Int := fit .sub (a - b)

/-- The product. -/
def mul (a b : Int) : Checked Int := fit .mul (a * b)

/-- The opposite. -/
def neg (a : Int) : Checked Int := fit .neg (-a)

/-- The quotient by a divisor that is not zero, rounded toward zero. -/
def div (a b : Int) : Checked Int := fit .div (a.tdiv b)

/-- The remainder that goes with `div`; it is refused exactly when the quotient is. -/
def rem (a b : Int) : Checked Int := if InRange (a.tdiv b) then .ok (a.tmod b) else .error .rem

/-- The quotient by a divisor that is not zero, rounded down. -/
def divFloor (a b : Int) : Checked Int := do
  let q ← div a b
  if (← rem a b) ≠ 0 ∧ (a < 0) ≠ (b < 0) then sub q 1 else pure q

/-- The quotient by a divisor that is not zero, rounded up. -/
def divCeil (a b : Int) : Checked Int := do
  let q ← div a b
  if (← rem a b) ≠ 0 ∧ (a < 0) = (b < 0) then add q 1 else pure q

/-- The number of values of an unsigned 64-bit word. -/
def sizeLimit : Nat := 18446744073709551616

/-- The sum of two sizes. -/
def addSize (a b : Nat) : Checked Nat := if a + b < sizeLimit then .ok (a + b) else .error .add

/-- The product of two sizes. -/
def mulSize (a b : Nat) : Checked Nat := if a * b < sizeLimit then .ok (a * b) else .error .mul

/-- The sum of a list of sizes, added from the left. -/
def sumSize (ns : List Nat) : Checked Nat := ns.foldlM addSize 0

/-- The sum of a list of numbers, added from the left. -/
def sum (xs : List Int) : Checked Int := xs.foldlM add 0

/-- The sum of a list of numbers, if every partial sum from the left fits. -/
def sum? (xs : List Int) : Option Int := xs.foldlM add? 0

theorem addSize_of_lt {a b : Nat} (h : a + b < sizeLimit) : addSize a b = .ok (a + b) := if_pos h

theorem addSize_eq_ok {a b n : Nat} (h : addSize a b = .ok n) : n = a + b := by
  unfold addSize at h
  split at h
  · cases h
    rfl
  · cases h

theorem fit?_eq_some_iff {x y : Int} : fit? x = some y ↔ InRange x ∧ y = x := by
  unfold fit?
  split <;> simp_all [eq_comm]

theorem fit_eq_ok_iff {t : Fault} {x y : Int} : fit t x = .ok y ↔ InRange x ∧ y = x := by
  unfold fit
  split <;> simp_all [eq_comm]

end WeightedCsp.Word

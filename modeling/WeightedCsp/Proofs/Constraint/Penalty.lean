import WeightedCsp.Proofs.Formulation.Entities
import WeightedCsp.Proofs.Model

/-!
# Bounds of penalties are sound

The arithmetic check of a builder looks at the two ends of the range of a left side only.  That is
enough: between the ends no amount is greater than at one of them, and the check measures both ends
with the strict comparators, which exceed all others (`Comparator.maxViolation_le_strict`).  So the
penalty of a comparison that was built has a bound that fits, its weighted bound fits as well
(`Comparator.inRange_weighted`), and every violation is computed exactly and stays below the bound
(`Constraint.penalty_sound`).
-/

namespace WeightedCsp

/-- The body compares a left side within the range with the right side. -/
inductive Body.Compares : Body → Comparator → Int → Int × Int → Prop
  /-- The left side is a sum of variables. -/
  | linear (terms : List LinearTerm) (op : Comparator) (rhs : Int) :
    Compares (.linear terms op rhs) op rhs (rangeOrAll (linearRange? terms))
  /-- The left side is a sum of indicators. -/
  | pseudoBoolean (terms : List IndicatorTerm) (op : Comparator) (rhs : Int) :
    Compares (.pseudoBoolean terms op rhs) op rhs (rangeOrAll (indicatorRange? terms))

namespace Comparator

variable {rhs lo hi : Int}

/-- The greatest amount fits, so nothing stands in for it. -/
theorem maxViolation?_eq_some (op : Comparator) (hfits : Fits rhs lo hi) (hle : lo ≤ hi) :
    op.maxViolation? rhs lo hi = some (op.maxViolation rhs lo hi) := by
  have hlo := fun op : Comparator => violation?_eq_some op hfits (Int.le_refl lo) hle
  have hhi := fun op : Comparator => violation?_eq_some op hfits hle (Int.le_refl hi)
  cases op <;> simp only [maxViolation, maxViolation?, hlo, hhi, Option.getD_some,
    Option.bind_eq_bind, Option.bind_some, Option.pure_def]

/-- No comparator is missed by more than the strict one in the same direction. -/
theorem maxViolation_le_strict (op : Comparator) (hfits : Fits rhs lo hi) (hle : lo ≤ hi) :
    op.maxViolation rhs lo hi ≤ max (max (rhs - lo + 1) 0) (max (hi - rhs + 1) 0) := by
  rw [maxViolation_eq op hfits hle]
  cases op <;> simp only [amount] <;> omega

/-- What a soft constraint can cost fits a machine word. -/
theorem inRange_weighted {price : Nat} (op : Comparator) (hle : lo ≤ hi)
    (h : Constraint.arithmeticFits (.soft price) rhs (some (lo, hi)) = true) :
    Word.InRange (price * op.maxViolation rhs lo hi) := by
  have hfits := fits_of_arithmeticFits h
  have hnonneg : 0 ≤ op.maxViolation rhs lo hi := by
    rw [maxViolation_eq op hfits hle]
    exact (op.amount_nonneg lo rhs).trans (Int.le_max_left _ _)
  -- The check has multiplied the price with the larger one of the two strict excesses.
  obtain ⟨x, hx⟩ := Option.isSome_iff_exists.1 h
  obtain ⟨r, ⟨⟩, h₁⟩ := Option.bind_eq_some_iff.1 hx
  obtain ⟨below, hbelow, h₂⟩ := Option.bind_eq_some_iff.1 h₁
  obtain ⟨above, habove, h₃⟩ := Option.bind_eq_some_iff.1 h₂
  obtain ⟨_, -, h₄⟩ := Option.bind_eq_some_iff.1 h₃
  obtain ⟨_, -, hmul⟩ := Option.bind_eq_some_iff.1 h₄
  obtain ⟨-, -, rfl⟩ := excess?_eq_some_iff.1 hbelow
  obtain ⟨-, -, rfl⟩ := excess?_eq_some_iff.1 habove
  obtain ⟨-, hrange⟩ := Word.mul?_eq_some hmul
  have hprice : max (Weight.soft price).toInt 0 = price :=
    Int.max_eq_left (Int.natCast_nonneg price)
  rw [hprice] at hrange
  have hbound : (price : Int) * op.maxViolation rhs lo hi ≤
      price * max (max (rhs - lo + 1) 0) (max (hi - rhs + 1) 0) :=
    Int.mul_le_mul_of_nonneg_left (maxViolation_le_strict op hfits hle) (Int.natCast_nonneg price)
  have hzero : Word.InRange 0 := by decide
  exact hzero.between hrange (Int.mul_nonneg (Int.natCast_nonneg price) hnonneg) hbound

end Comparator

namespace Constraint

/-- The range of a comparison that was built passed the arithmetic check, and is not empty as soon
as the variables have values. -/
theorem WellFormed.compares {c : Constraint} (hc : c.WellFormed) {value : String → Int}
    (hin : InDomains value c.vars) {op : Comparator} {rhs : Int} {range : Int × Int}
    (h : c.body.Compares op rhs range) :
    range.1 ≤ range.2 ∧ arithmeticFits c.weight rhs (some range) = true ∧
      c.penaltyBound? = some (if c.isHard then 0 else op.maxViolation rhs range.1 range.2) := by
  obtain ⟨name, weight, body⟩ := c
  obtain ⟨-, hbody⟩ := hc
  -- Both kinds of comparison keep the check that they passed when they were built.
  cases h with
  | linear terms op rhs =>
    obtain ⟨lo, hi, hrange, -, hlo, hhi, -⟩ := linear_fits hbody hin
    simp only [hrange] at hbody
    simp only [penaltyBound?, hrange, rangeOrAll, Option.getD_some]
    exact ⟨hlo.trans hhi, hbody, trivial⟩
  | pseudoBoolean terms op rhs =>
    obtain ⟨lo, hi, hrange, -, hlo, hhi, -⟩ := indicator_fits value hbody.2
    simp only [hrange] at hbody
    simp only [penaltyBound?, hrange, rangeOrAll, Option.getD_some]
    exact ⟨hlo.trans hhi, hbody.2, trivial⟩

/-- A comparison that was built has a greatest violation that fits, also when it is weighted. -/
theorem WellFormed.weighted_fits {c : Constraint} (hc : c.WellFormed) {value : String → Int}
    (hin : InDomains value c.vars) {op : Comparator} {rhs lo hi bound : Int}
    (h : c.body.Compares op rhs (lo, hi)) (hbound : c.penaltyBound? = some bound) :
    Word.InRange (c.weight.toInt * bound) ∧
      ∃ m, op.maxViolation? rhs lo hi = some m ∧ (c.isSoft = true → bound = m) := by
  obtain ⟨hle, harith, hpenalty⟩ := hc.compares hin h
  have hmax := Comparator.maxViolation?_eq_some op (Comparator.fits_of_arithmeticFits harith) hle
  rw [hpenalty] at hbound
  cases hbound
  cases hweight : c.weight with
  | hard =>
    simp only [isHard, isSoft, hweight, Weight.isHard, ↓reduceIte, Int.mul_zero]
    exact ⟨by decide, _, hmax, by simp⟩
  | soft price =>
    rw [hweight] at harith
    simp only [isHard, isSoft, hweight, Weight.isHard, Bool.false_eq_true, ↓reduceIte]
    exact ⟨Comparator.inRange_weighted op hle harith, _, hmax, fun _ => rfl⟩

/-- Every kind of constraint but one has a penalty bound. -/
theorem penaltyBound?_isSome {c : Constraint} (h : ∀ vars, c.body ≠ .allDifferent vars) :
    ∃ bound, c.penaltyBound? = some bound := by
  obtain ⟨name, weight, body⟩ := c
  cases body with
  | linear terms op rhs => exact ⟨_, rfl⟩
  | pseudoBoolean terms op rhs => exact ⟨_, rfl⟩
  | conflict terms => exact ⟨_, rfl⟩
  | allDifferent vars => exact absurd rfl (h vars)

/-- **Penalties are sound.** Under values of the domains, the violation of a comparison or a
conflict that was built is a number, which is zero exactly where the constraint holds and, for a
soft one, at most the bound of its penalty.  The weighted bound of a comparison fits a machine word,
and so does its greatest violation. -/
theorem penalty_sound {c : Constraint} (hc : c.Built)
    (hkind : ∀ vars, c.body ≠ .allDifferent vars) {a : Assignment} {value : String → Int}
    (ha : ∀ x ∈ c.vars, a x.name = some (value x.name) ∧ value x.name ∈ x.domain) :
    ∃ amount bound, c.violation a = .ok amount ∧ c.penaltyBound? = some bound ∧ 0 ≤ amount ∧
      (amount = 0 ↔ c.body.Holds value) ∧ (c.isSoft = true → amount ≤ bound) ∧
      ∀ op rhs lo hi, c.body.Compares op rhs (lo, hi) →
        Word.InRange (c.weight.toInt * bound) ∧
          ∃ m, op.maxViolation? rhs lo hi = some m ∧ (c.isSoft = true → bound = m) := by
  have hwell := hc.wellFormed
  have hin : InDomains value c.vars := fun x hx => (ha x hx).2
  obtain ⟨bound, hbound⟩ := penaltyBound?_isSome hkind
  refine ⟨c.amount value, bound, ?_, hbound, c.amount_nonneg value, c.amount_eq_zero_iff value,
    fun hsoft => ?_, fun op rhs lo hi h => hwell.weighted_fits hin h hbound⟩
  · rw [violation_congr (b := .of value) fun x hx => (ha x hx).1]
    exact violation_eq_ok hwell hin
  · cases hweight : c.weight with
    | hard => simp [isSoft, hweight, Weight.isHard] at hsoft
    | soft price => exact Formulation.amount_le_penaltyBound hwell hweight hin hbound

/-- Terms near the ends of the machine range that cancel, one variable repeated and one with a gap
in its domain. -/
def steep : Constraint :=
  ⟨"steep", .soft 1, .linear [⟨4611686018427387904, Model.Sample.y⟩,
    ⟨-4611686018427387904, Model.Sample.y⟩, ⟨2, Model.Sample.x⟩] .lt 3⟩

theorem penalty_sound_steep : ∃ amount bound,
    steep.violation (.of fun name => if name = "x" then 2 else 1) = .ok amount ∧
      steep.penaltyBound? = some bound ∧ 0 ≤ amount ∧
      (amount = 0 ↔ steep.body.Holds fun name => if name = "x" then 2 else 1) ∧
      (steep.isSoft = true → amount ≤ bound) ∧
      ∀ op rhs lo hi, steep.body.Compares op rhs (lo, hi) →
        Word.InRange (steep.weight.toInt * bound) ∧
          ∃ m, op.maxViolation? rhs lo hi = some m ∧ (steep.isSoft = true → bound = m) :=
  have hbuilt : Constraint.linear "steep" (.soft 1) [⟨4611686018427387904, Model.Sample.y⟩,
    ⟨-4611686018427387904, Model.Sample.y⟩, ⟨2, Model.Sample.x⟩] (some .lt) 3 = .ok steep := rfl
  penalty_sound (.linear hbuilt) (by simp [steep]) (by decide)

end Constraint

end WeightedCsp

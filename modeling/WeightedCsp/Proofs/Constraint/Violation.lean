import Mathlib.Algebra.Order.Ring.Int
import Mathlib.Tactic.Linarith
import WeightedCsp.Constraint.Build
import WeightedCsp.Constraint.Violation
import WeightedCsp.Proofs.Step

/-!
# Violations are exact

`Comparator.amount` is the amount by which a comparison is missed, as a mathematical integer, and
`Constraint.amount` that of a constraint.  A constraint that passed the checks of its builder
computes this number without leaving the machine range, for all values of the domains
(`Constraint.violation_eq_ok`): the partial sums stay between the partial sums of the least and the
greatest terms, which were checked.  The amount is zero exactly when the constraint holds
(`Constraint.amount_eq_zero_iff`).
-/

namespace WeightedCsp

/-! ### Comparisons -/

namespace Word

theorem fit?_of_inRange {x : Int} (h : InRange x) : fit? x = some x := by
  simp [fit?, h]

theorem add?_eq_some {a b c : Int} (h : add? a b = some c) : c = a + b ∧ InRange (a + b) :=
  ⟨(fit?_eq_some_iff.1 h).2, (fit?_eq_some_iff.1 h).1⟩

theorem sub?_eq_some {a b c : Int} (h : sub? a b = some c) : c = a - b ∧ InRange (a - b) :=
  ⟨(fit?_eq_some_iff.1 h).2, (fit?_eq_some_iff.1 h).1⟩

theorem mul?_eq_some {a b c : Int} (h : mul? a b = some c) : c = a * b ∧ InRange (a * b) :=
  ⟨(fit?_eq_some_iff.1 h).2, (fit?_eq_some_iff.1 h).1⟩

/-- What lies between two machine integers is one. -/
theorem InRange.between {a b x : Int} (ha : InRange a) (hb : InRange b) (hax : a ≤ x)
    (hxb : x ≤ b) : InRange x :=
  ⟨ha.1.trans hax, hxb.trans hb.2⟩

end Word

namespace Comparator

/-- The least change of the left side that makes the comparison hold. -/
def amount : Comparator → Int → Int → Int
  | eq, a, b => (a - b).natAbs
  | le, a, b => max (a - b) 0
  | lt, a, b => max (a - b + 1) 0
  | ge, a, b => max (b - a) 0
  | gt, a, b => max (b - a + 1) 0

/-- A comparison is never missed by less than nothing. -/
theorem amount_nonneg (op : Comparator) (a b : Int) : 0 ≤ op.amount a b := by
  cases op <;> simp only [amount] <;> omega

/-- A comparison is missed by nothing exactly where it holds. -/
theorem amount_eq_zero_iff (op : Comparator) (a b : Int) : op.amount a b = 0 ↔ op.Holds a b := by
  cases op <;> simp only [amount, Holds] <;> omega

/-- An excess is given where both differences fit, and it is cut off at zero. -/
theorem excess?_eq_some_iff {a b extra x : Int} :
    excess? a b extra = some x ↔
      Word.InRange (a - b) ∧ Word.InRange (a - b + extra) ∧ x = max (a - b + extra) 0 := by
  unfold excess?
  constructor
  · intro h
    obtain ⟨d, hd, h₁⟩ := Option.bind_eq_some_iff.1 h
    obtain ⟨e, he, h₂⟩ := Option.bind_eq_some_iff.1 h₁
    obtain ⟨rfl, hd'⟩ := Word.sub?_eq_some hd
    obtain ⟨rfl, he'⟩ := Word.add?_eq_some he
    cases h₂
    exact ⟨hd', he', rfl⟩
  · rintro ⟨hd, he, rfl⟩
    simp [Word.sub?, Word.add?, Word.fit?_of_inRange hd, Word.fit?_of_inRange he]

/-- What the arithmetic check of a builder has found, for a left side from `lo` to `hi`. -/
structure Fits (rhs lo hi : Int) : Prop where
  /-- The least left side is not too far below the right side. -/
  below : rhs - lo < Word.greatest
  /-- The greatest left side is not too far above it. -/
  above : hi - rhs < Word.greatest

/-- The check of the arithmetic is a check of both ends of the range. -/
theorem fits_of_arithmeticFits {w : Weight} {rhs lo hi : Int}
    (h : Constraint.arithmeticFits w rhs (some (lo, hi)) = true) : Fits rhs lo hi := by
  unfold Constraint.arithmeticFits at h
  obtain ⟨x, hx⟩ := Option.isSome_iff_exists.1 h
  obtain ⟨r, hr, h₁⟩ := Option.bind_eq_some_iff.1 hx
  cases hr
  obtain ⟨below, hbelow, h₂⟩ := Option.bind_eq_some_iff.1 h₁
  obtain ⟨above, habove, -⟩ := Option.bind_eq_some_iff.1 h₂
  obtain ⟨-, hlo, -⟩ := excess?_eq_some_iff.1 hbelow
  obtain ⟨-, hhi, -⟩ := excess?_eq_some_iff.1 habove
  exact ⟨Int.lt_of_add_one_le hlo.2, Int.lt_of_add_one_le hhi.2⟩

variable {rhs lo hi lhs : Int}

theorem violation?_eq_some (op : Comparator) (hfits : Fits rhs lo hi) (hlo : lo ≤ lhs)
    (hhi : lhs ≤ hi) : op.violation? lhs rhs = some (op.amount lhs rhs) := by
  have hbelow := hfits.below
  have habove := hfits.above
  unfold Word.greatest at hbelow habove
  -- The range keeps away from both ends of the machine range, so strict bounds fit too.
  cases op with
  | eq =>
    have hsub : Word.InRange (lhs - rhs) := by
      unfold Word.InRange Word.least Word.greatest
      omega
    have habs : Word.InRange (lhs - rhs).natAbs := by
      unfold Word.InRange Word.least Word.greatest
      omega
    simp only [violation?, Word.sub?, Word.abs?, Word.fit?_of_inRange hsub, Option.bind_eq_bind,
      Option.bind_some, Word.fit?_of_inRange habs, amount]
  | le =>
    refine excess?_eq_some_iff.2 ⟨?_, ?_, by simp [amount]⟩ <;>
      unfold Word.InRange Word.least Word.greatest <;> omega
  | lt =>
    refine excess?_eq_some_iff.2 ⟨?_, ?_, rfl⟩ <;>
      unfold Word.InRange Word.least Word.greatest <;> omega
  | ge =>
    refine excess?_eq_some_iff.2 ⟨?_, ?_, by simp [amount]⟩ <;>
      unfold Word.InRange Word.least Word.greatest <;> omega
  | gt =>
    refine excess?_eq_some_iff.2 ⟨?_, ?_, rfl⟩ <;>
      unfold Word.InRange Word.least Word.greatest <;> omega

/-- The bound of a penalty is the amount at one end of the range. -/
theorem maxViolation_eq (op : Comparator) (hfits : Fits rhs lo hi) (hle : lo ≤ hi) :
    op.maxViolation rhs lo hi = max (op.amount lo rhs) (op.amount hi rhs) := by
  have hlo := fun op : Comparator => violation?_eq_some op hfits (Int.le_refl lo) hle
  have hhi := fun op : Comparator => violation?_eq_some op hfits hle (Int.le_refl hi)
  cases op <;> simp only [maxViolation, maxViolation?, hlo, hhi, Option.getD_some,
    Option.bind_eq_bind, Option.bind_some, Option.pure_def, amount] <;> omega

theorem amount_le_maxViolation (op : Comparator) (hfits : Fits rhs lo hi) (hlo : lo ≤ lhs)
    (hhi : lhs ≤ hi) : op.amount lhs rhs ≤ op.maxViolation rhs lo hi := by
  rw [maxViolation_eq op hfits (hlo.trans hhi)]
  cases op <;> simp only [amount] <;> omega

end Comparator

/-! ### Sums of terms -/

/-- The values of the variables lie in their domains. -/
def InDomains (value : String → Int) (xs : List Variable) : Prop :=
  ∀ x ∈ xs, value x.name ∈ x.domain

instance (value : String → Int) (xs : List Variable) : Decidable (InDomains value xs) :=
  inferInstanceAs (Decidable (∀ x ∈ xs, value x.name ∈ x.domain))

/-- A variable more in front is a value more to be in its domain. -/
theorem InDomains.cons_iff {value : String → Int} {x : Variable} {xs : List Variable} :
    InDomains value (x :: xs) ↔ value x.name ∈ x.domain ∧ InDomains value xs :=
  List.forall_mem_cons

/-- The assignment that gives every name its value. -/
def Assignment.of (value : String → Int) : Assignment := fun name => some (value name)

/-- An assignment that comes from a function knows the value of every variable. -/
theorem Assignment.value_of (value : String → Int) (x : Variable) :
    (Assignment.of value).value x = .ok (value x.name) := rfl

/-- The lower bound of a domain is a bound. -/
theorem Domain.lb_le {d : Domain} {k : Int} (hk : k ∈ d) : d.lb ≤ k := by
  obtain ⟨values, hasc, hne⟩ := d
  cases values with
  | nil => exact absurd rfl hne
  | cons u us =>
    rcases List.mem_cons.1 hk with rfl | hk
    · exact Int.le_refl _
    · exact Int.le_of_lt ((List.pairwise_cons.1 hasc).1 k hk)

/-- The upper bound of a domain is a bound. -/
theorem Domain.le_ub {d : Domain} {k : Int} (hk : k ∈ d) : k ≤ d.ub := by
  have hasc := d.ascending
  have hmem : k ∈ d.values := hk
  rw [← List.dropLast_concat_getLast d.nonempty] at hmem hasc
  rcases List.mem_append.1 hmem with hk | hk
  · exact Int.le_of_lt ((List.pairwise_append.1 hasc).2.2 k hk _ (by simp [ub]))
  · exact Int.le_of_eq (List.mem_singleton.1 hk)

/-- The range of a term holds its value wherever the variable is in its domain. -/
theorem LinearTerm.range?_bounds {t : LinearTerm} {a b : Int} (h : t.range? = some (a, b))
    {k : Int} (hk : k ∈ t.var.domain) :
    a ≤ t.coeff * k ∧ t.coeff * k ≤ b ∧ Word.InRange (t.coeff * k) := by
  unfold range? at h
  split at h
  · next c d hc hd =>
    cases h
    obtain ⟨rfl, hlo⟩ := Word.mul?_eq_some hc
    obtain ⟨rfl, hhi⟩ := Word.mul?_eq_some hd
    have hlb := Domain.lb_le hk
    have hub := Domain.le_ub hk
    -- Which end of the domain gives which end of the range depends on the sign.
    rcases Int.le_total 0 t.coeff with hpos | hneg
    · have h₁ := Int.mul_le_mul_of_nonneg_left hlb hpos
      have h₂ := Int.mul_le_mul_of_nonneg_left hub hpos
      exact ⟨by omega, by omega, hlo.between hhi h₁ h₂⟩
    · have h₁ := Int.mul_le_mul_of_nonpos_left hneg hlb
      have h₂ := Int.mul_le_mul_of_nonpos_left hneg hub
      exact ⟨by omega, by omega, hhi.between hlo h₂ h₁⟩
  · cases h

/-- A sum whose terms stay in their ranges stays in the sum of the ranges. -/
theorem addRanges?_cons {lo hi a b : Int} {rest : List (Option (Int × Int))} {lo' hi' : Int}
    (h : addRanges? (lo, hi) (some (a, b) :: rest) = some (lo', hi')) :
    Word.InRange (lo + a) ∧ Word.InRange (hi + b) ∧
      addRanges? (lo + a, hi + b) rest = some (lo', hi') := by
  rw [addRanges?] at h
  split at h
  · next c d hc hd =>
    obtain ⟨rfl, hlo⟩ := Word.add?_eq_some hc
    obtain ⟨rfl, hhi⟩ := Word.add?_eq_some hd
    exact ⟨hlo, hhi, h⟩
  · cases h

theorem linearSum_eq_ok (name : String) {value : String → Int} {terms : List LinearTerm}
    (hin : InDomains value (terms.map (·.var))) {lo hi lo' hi' acc : Int}
    (h : addRanges? (lo, hi) (terms.map (·.range?)) = some (lo', hi')) (hlo : lo ≤ acc)
    (hhi : acc ≤ hi) :
    linearSum name (.of value) acc terms = .ok (acc + linearTotal value terms) ∧
      lo' ≤ acc + linearTotal value terms ∧ acc + linearTotal value terms ≤ hi' := by
  -- By induction on the terms: the sum so far stays between the sums of the least and of the
  -- greatest products.
  induction terms generalizing lo hi acc with
  | nil =>
    cases h
    exact ⟨by simp [linearSum, linearTotal], by simpa [linearTotal] using hlo,
      by simpa [linearTotal] using hhi⟩
  | cons t terms ih =>
    obtain ⟨hk, hrest⟩ := InDomains.cons_iff.1 hin
    rw [List.map_cons] at h
    cases hr : t.range? with
    | none =>
      rw [hr] at h
      cases h
    | some r =>
      obtain ⟨a, b⟩ := r
      rw [hr] at h
      obtain ⟨hlo', hhi', h₁⟩ := addRanges?_cons h
      obtain ⟨ha, hb, hmul⟩ : a ≤ t.coeff * value t.var.name ∧ t.coeff * value t.var.name ≤ b ∧
        Word.InRange (t.coeff * value t.var.name) := LinearTerm.range?_bounds hr hk
      have hadd : Word.InRange (acc + t.coeff * value t.var.name) :=
        hlo'.between hhi' (by omega) (by omega)
      obtain ⟨hsum, hle, hge⟩ := ih hrest h₁
        (show lo + a ≤ acc + t.coeff * value t.var.name by omega) (by omega)
      have htotal : acc + linearTotal value (t :: terms) =
          acc + t.coeff * value t.var.name + linearTotal value terms := by
        simp only [linearTotal, List.foldr_cons]
        omega
      rw [htotal]
      refine ⟨?_, hle, hge⟩
      have hstep : (do Word.add? acc (← Word.mul? t.coeff (value t.var.name))) =
          some (acc + t.coeff * value t.var.name) := by
        simp [Word.mul?, Word.fit?_of_inRange hmul, Word.add?, Word.fit?_of_inRange hadd]
      show (orOverflow name (do Word.add? acc (← Word.mul? t.coeff (value t.var.name))) >>= _) = _
      rw [hstep, ← hsum]
      rfl

/-- Sums of indicators stay between the sums of the ends of their ranges, from any partial sum
on. -/
theorem indicatorSum_eq_ok (name : String) (value : String → Int) {terms : List IndicatorTerm}
    {lo hi lo' hi' acc : Int}
    (h : addRanges? (lo, hi) (terms.map fun t => some t.range) = some (lo', hi')) (hlo : lo ≤ acc)
    (hhi : acc ≤ hi) :
    indicatorSum name (.of value) acc terms = .ok (acc + indicatorTotal value terms) ∧
      lo' ≤ acc + indicatorTotal value terms ∧ acc + indicatorTotal value terms ≤ hi' := by
  induction terms generalizing lo hi acc with
  | nil =>
    cases h
    exact ⟨by simp [indicatorSum, indicatorTotal], by simpa [indicatorTotal] using hlo,
      by simpa [indicatorTotal] using hhi⟩
  | cons t terms ih =>
    rw [List.map_cons] at h
    obtain ⟨hlo', hhi', h₁⟩ := addRanges?_cons h
    have htotal : acc + indicatorTotal value (t :: terms) =
        acc + (if value t.var.name = t.value then t.coeff else 0) +
          indicatorTotal value terms := by
      simp only [indicatorTotal, List.foldr_cons]
      omega
    rw [htotal]
    by_cases htaken : value t.var.name = t.value
    · have hadd : Word.InRange (acc + t.coeff) := hlo'.between hhi' (by omega) (by omega)
      obtain ⟨hsum, hle, hge⟩ := ih h₁ (show _ ≤ acc + t.coeff by omega) (by omega)
      rw [if_pos htaken, ← hsum]
      refine ⟨?_, hle, hge⟩
      have hstep : Word.add? acc t.coeff = some (acc + t.coeff) := by
        simp [Word.add?, Word.fit?_of_inRange hadd]
      show (if value t.var.name = t.value then orOverflow name (Word.add? acc t.coeff) >>= _
        else _) = _
      rw [if_pos htaken, hstep]
      rfl
    · -- A term that does not count adds nothing, which is in its range as well.
      obtain ⟨hsum, hle, hge⟩ := ih h₁ (show _ ≤ acc by omega) (by omega)
      rw [if_neg htaken, Int.add_zero, ← hsum]
      refine ⟨?_, hle, hge⟩
      show (if value t.var.name = t.value then _ else _) = _
      rw [if_neg htaken]

/-! ### Constraints -/

instance (value : String → Int) (t : Predicate) : Decidable (t.Holds value) :=
  inferInstanceAs (Decidable (_ ↔ _))

namespace Constraint

/-- The violation of the constraint as a mathematical integer. -/
def amount (value : String → Int) (c : Constraint) : Int :=
  match c.body with
  | .linear terms op rhs => op.amount (linearTotal value terms) rhs
  | .pseudoBoolean terms op rhs => op.amount (indicatorTotal value terms) rhs
  | .conflict terms => if ∀ t ∈ terms, t.Holds value then 1 else 0
  | .allDifferent vars => clashes (vars.map fun x => value x.name)

/-- A constraint that a builder has made. -/
inductive Built : Constraint → Prop
  /-- A comparison of a sum of variables. -/
  | linear {name : String} {weight : Weight} {terms : List LinearTerm} {op : Option Comparator}
    {rhs : Int} {c : Constraint} (h : Constraint.linear name weight terms op rhs = .ok c) : Built c
  /-- A comparison of a sum of indicators. -/
  | pseudoBoolean {name : String} {weight : Weight} {terms : List IndicatorTerm}
    {op : Option Comparator} {rhs : Int} {c : Constraint}
    (h : Constraint.pseudoBoolean name weight terms op rhs = .ok c) : Built c
  /-- A forbidden conjunction. -/
  | conflict {name : String} {weight : Weight} {terms : List Predicate} {c : Constraint}
    (h : Constraint.conflict name weight terms = .ok c) : Built c
  /-- Different values. -/
  | allDifferent {name : String} {weight : Weight} {vars : List Variable} {c : Constraint}
    (h : Constraint.allDifferent name weight vars = .ok c) : Built c

/-- What the checks of the builders have found. -/
structure WellFormed (c : Constraint) : Prop where
  /-- The name is an identifier. -/
  name : Identifier.isValid c.name
  /-- Constants lie in the domains, and the arithmetic of a comparison fits. -/
  body : match c.body with
    | .linear terms _ rhs => arithmeticFits c.weight rhs (linearRange? terms) = true
    | .pseudoBoolean terms _ rhs => (∀ t ∈ terms, t.value ∈ t.var.domain) ∧
        arithmeticFits c.weight rhs (indicatorRange? terms) = true
    | .conflict terms => ∀ t ∈ terms, t.value ∈ t.var.domain
    | .allDifferent _ => True

/-- Only a valid name passes the check. -/
theorem check_eq_ok {name : String} {u : Unit} (h : Identifier.check name = .ok u) :
    Identifier.isValid name := by
  unfold Identifier.check at h
  split_ifs at h with hvalid
  exact hvalid

theorem checkArithmetic_eq_ok {name : String} {weight : Weight} {rhs : Int}
    {range : Option (Int × Int)} {u : Unit} (h : checkArithmetic name weight rhs range = .ok u) :
    arithmeticFits weight rhs range = true := by
  unfold checkArithmetic at h
  split_ifs at h with hfits
  exact hfits

/-- Only values of the domains pass the check. -/
theorem checkValues_eq_ok {α : Type} {f : α → Variable × Int} {ts : List α} {u : Unit}
    (h : checkValues (ts.map f) = .ok u) : ∀ t ∈ ts, (f t).2 ∈ (f t).1.domain := by
  induction ts with
  | nil => simp
  | cons t ts ih =>
    rw [List.map_cons, checkValues] at h
    split_ifs at h with hmem
    exact List.forall_mem_cons.2 ⟨hmem, ih h⟩

theorem Built.wellFormed {c : Constraint} (h : c.Built) : c.WellFormed := by
  -- Each constructor checks the name first and then what its body needs.
  cases h with
  | linear h =>
    obtain ⟨u, hname, h₁⟩ := Checked.bind_eq_ok.1 h
    obtain ⟨op, -, h₂⟩ := Checked.bind_eq_ok.1 h₁
    obtain ⟨u', harith, h₃⟩ := Checked.bind_eq_ok.1 h₂
    cases h₃
    exact ⟨check_eq_ok hname, checkArithmetic_eq_ok harith⟩
  | pseudoBoolean h =>
    obtain ⟨u, hname, h₁⟩ := Checked.bind_eq_ok.1 h
    obtain ⟨op, -, h₂⟩ := Checked.bind_eq_ok.1 h₁
    obtain ⟨u', hvalues, h₃⟩ := Checked.bind_eq_ok.1 h₂
    obtain ⟨u'', harith, h₄⟩ := Checked.bind_eq_ok.1 h₃
    cases h₄
    exact ⟨check_eq_ok hname, checkValues_eq_ok hvalues, checkArithmetic_eq_ok harith⟩
  | conflict h =>
    obtain ⟨u, hname, h₁⟩ := Checked.bind_eq_ok.1 h
    obtain ⟨u', hvalues, h₂⟩ := Checked.bind_eq_ok.1 h₁
    cases h₂
    exact ⟨check_eq_ok hname, checkValues_eq_ok hvalues⟩
  | @allDifferent name weight vars c h =>
    obtain ⟨u, hname, h₁⟩ := Checked.bind_eq_ok.1 h
    cases vars with
    | nil =>
      cases h₁
      exact ⟨check_eq_ok hname, trivial⟩
    | cons x rest =>
      simp only at h₁
      split_ifs at h₁
      cases h₁
      exact ⟨check_eq_ok hname, trivial⟩

/-- The left side of a comparison that fits, with its range. -/
theorem linear_fits {w : Weight} {value : String → Int} {terms : List LinearTerm} {rhs : Int}
    (h : arithmeticFits w rhs (linearRange? terms) = true)
    (hin : InDomains value (terms.map (·.var))) :
    ∃ lo hi, linearRange? terms = some (lo, hi) ∧ Comparator.Fits rhs lo hi ∧
      lo ≤ linearTotal value terms ∧ linearTotal value terms ≤ hi ∧
      ∀ name, linearSum name (.of value) 0 terms = .ok (linearTotal value terms) := by
  cases hrange : linearRange? terms with
  | none =>
    rw [hrange] at h
    cases h
  | some r =>
    obtain ⟨lo, hi⟩ := r
    rw [hrange] at h
    have hsum := fun name => linearSum_eq_ok name hin hrange (Int.le_refl 0) (Int.le_refl 0)
    simp only [Int.zero_add] at hsum
    exact ⟨lo, hi, rfl, Comparator.fits_of_arithmeticFits h, (hsum "").2.1, (hsum "").2.2,
      fun name => (hsum name).1⟩

/-- The sum of the indicators of a constraint lies in the range that was checked. -/
theorem indicator_fits {w : Weight} (value : String → Int) {terms : List IndicatorTerm} {rhs : Int}
    (h : arithmeticFits w rhs (indicatorRange? terms) = true) :
    ∃ lo hi, indicatorRange? terms = some (lo, hi) ∧ Comparator.Fits rhs lo hi ∧
      lo ≤ indicatorTotal value terms ∧ indicatorTotal value terms ≤ hi ∧
      ∀ name, indicatorSum name (.of value) 0 terms = .ok (indicatorTotal value terms) := by
  cases hrange : indicatorRange? terms with
  | none =>
    rw [hrange] at h
    cases h
  | some r =>
    obtain ⟨lo, hi⟩ := r
    rw [hrange] at h
    have hsum := fun name => indicatorSum_eq_ok name value hrange (Int.le_refl 0) (Int.le_refl 0)
    simp only [Int.zero_add] at hsum
    exact ⟨lo, hi, rfl, Comparator.fits_of_arithmeticFits h, (hsum "").2.1, (hsum "").2.2,
      fun name => (hsum name).1⟩

/-- Predicates are evaluated to the truth of their conjunction. -/
theorem allPredicates_eq_ok (value : String → Int) (terms : List Predicate) :
    allPredicates (.of value) terms = .ok (decide (∀ t ∈ terms, t.Holds value)) := by
  induction terms with
  | nil => rfl
  | cons t terms ih =>
    have hhead : (decide (value t.var.name = t.value) == t.polarity) =
        decide (t.Holds value) := by
      rw [Bool.eq_iff_iff, decide_eq_true_eq, Predicate.Holds]
      cases t.polarity <;> simp
    rw [allPredicates, Assignment.value_of, ih]
    show Except.ok ((decide (value t.var.name = t.value) == t.polarity) && _) = _
    rw [hhead]
    simp only [List.forall_mem_cons, Bool.decide_and]

theorem mapM_value_eq_ok (value : String → Int) (vars : List Variable) :
    vars.mapM (Assignment.of value).value = .ok (vars.map fun x => value x.name) := by
  induction vars with
  | nil => rfl
  | cons x vars ih =>
    rw [List.mapM_cons, ih, Assignment.value_of]
    rfl

/-- **Violations are exact.** For values in the domains nothing leaves the machine range. -/
theorem violation_eq_ok {c : Constraint} (hc : c.WellFormed) {value : String → Int}
    (hin : InDomains value c.vars) : c.violation (.of value) = .ok (c.amount value) := by
  obtain ⟨name, weight, body⟩ := c
  obtain ⟨-, hbody⟩ := hc
  cases body with
  | linear terms op rhs =>
    obtain ⟨lo, hi, -, hfits, hlo, hhi, hsum⟩ := linear_fits hbody hin
    simp only [violation, hsum, amount]
    show orOverflow name (op.violation? (linearTotal value terms) rhs) = _
    rw [Comparator.violation?_eq_some op hfits hlo hhi]
    rfl
  | pseudoBoolean terms op rhs =>
    obtain ⟨lo, hi, -, hfits, hlo, hhi, hsum⟩ := indicator_fits value hbody.2
    simp only [violation, hsum, amount]
    show orOverflow name (op.violation? (indicatorTotal value terms) rhs) = _
    rw [Comparator.violation?_eq_some op hfits hlo hhi]
    rfl
  | conflict terms =>
    simp only [violation, allPredicates_eq_ok, amount]
    show Except.ok _ = _
    simp
  | allDifferent vars =>
    simp only [violation, mapM_value_eq_ok, amount]
    rfl

/-- There is no clash exactly where the values are pairwise different. -/
theorem clashes_eq_zero_iff {vs : List Int} : clashes vs = 0 ↔ vs.Pairwise (· ≠ ·) := by
  induction vs with
  | nil => simp [clashes]
  | cons v vs ih =>
    rw [clashes, Nat.add_eq_zero_iff, ih, List.pairwise_cons, List.count_eq_zero]
    refine and_congr_left fun _ => ⟨fun h w hw heq => h (heq ▸ hw), fun h hv => h v hv rfl⟩

/-- The violation is zero exactly where the constraint holds. -/
theorem amount_eq_zero_iff (c : Constraint) (value : String → Int) :
    c.amount value = 0 ↔ c.body.Holds value := by
  obtain ⟨name, weight, body⟩ := c
  cases body with
  | linear terms op rhs => exact Comparator.amount_eq_zero_iff _ _ _
  | pseudoBoolean terms op rhs => exact Comparator.amount_eq_zero_iff _ _ _
  | conflict terms =>
    simp only [amount, Body.Holds]
    split_ifs with h
    · simpa using h
    · simpa using h
  | allDifferent vars =>
    simp only [amount, Body.Holds, Int.natCast_eq_zero, clashes_eq_zero_iff, List.pairwise_map]

/-- A constraint is never missed by less than nothing. -/
theorem amount_nonneg (c : Constraint) (value : String → Int) : 0 ≤ c.amount value := by
  obtain ⟨name, weight, body⟩ := c
  cases body with
  | linear terms op rhs => exact Comparator.amount_nonneg _ _ _
  | pseudoBoolean terms op rhs => exact Comparator.amount_nonneg _ _ _
  | conflict terms =>
    simp only [amount]
    split_ifs <;> omega
  | allDifferent vars => exact Int.natCast_nonneg _

/-! ### Only the variables of a constraint count -/

/-- A sum depends on the values of its variables only. -/
theorem linearTotal_congr {value value' : String → Int} {terms : List LinearTerm}
    (h : ∀ x ∈ terms.map (·.var), value x.name = value' x.name) :
    linearTotal value terms = linearTotal value' terms := by
  induction terms with
  | nil => rfl
  | cons t terms ih =>
    obtain ⟨ht, hrest⟩ := List.forall_mem_cons.1 h
    have hrest' := ih hrest
    unfold linearTotal at hrest' ⊢
    rw [List.foldr_cons, List.foldr_cons, ht, hrest']

theorem indicatorTotal_congr {value value' : String → Int} {terms : List IndicatorTerm}
    (h : ∀ x ∈ terms.map (·.var), value x.name = value' x.name) :
    indicatorTotal value terms = indicatorTotal value' terms := by
  induction terms with
  | nil => rfl
  | cons t terms ih =>
    obtain ⟨ht, hrest⟩ := List.forall_mem_cons.1 h
    have hrest' := ih hrest
    unfold indicatorTotal at hrest' ⊢
    rw [List.foldr_cons, List.foldr_cons, ht, hrest']

/-- By how much a constraint is missed depends on the values of its variables only. -/
theorem amount_congr {value value' : String → Int} {c : Constraint}
    (h : ∀ x ∈ c.vars, value x.name = value' x.name) : c.amount value = c.amount value' := by
  obtain ⟨name, weight, body⟩ := c
  cases body with
  | linear terms op rhs =>
    show op.amount _ rhs = op.amount _ rhs
    rw [linearTotal_congr h]
  | pseudoBoolean terms op rhs =>
    show op.amount _ rhs = op.amount _ rhs
    rw [indicatorTotal_congr h]
  | conflict terms =>
    have hall : (∀ t ∈ terms, t.Holds value) ↔ ∀ t ∈ terms, t.Holds value' := by
      refine forall₂_congr fun t ht => ?_
      rw [Predicate.Holds, Predicate.Holds, h t.var (List.mem_map_of_mem ht)]
    simp only [amount, hall]
  | allDifferent vars =>
    have hvalues : (vars.map fun x => value x.name) = vars.map fun x => value' x.name :=
      List.map_congr_left h
    simp only [amount, hvalues]

/-- The computed sum depends on what an assignment says of the variables of the terms only. -/
theorem linearSum_congr {name : String} {a b : Assignment} {terms : List LinearTerm} {acc : Int}
    (h : ∀ x ∈ terms.map (·.var), a x.name = b x.name) :
    linearSum name a acc terms = linearSum name b acc terms := by
  induction terms generalizing acc with
  | nil => rfl
  | cons t terms ih =>
    obtain ⟨ht, hrest⟩ := List.forall_mem_cons.1 h
    simp only [linearSum, Assignment.value, ht, ih hrest]

theorem indicatorSum_congr {name : String} {a b : Assignment} {terms : List IndicatorTerm}
    {acc : Int} (h : ∀ x ∈ terms.map (·.var), a x.name = b x.name) :
    indicatorSum name a acc terms = indicatorSum name b acc terms := by
  induction terms generalizing acc with
  | nil => rfl
  | cons t terms ih =>
    obtain ⟨ht, hrest⟩ := List.forall_mem_cons.1 h
    simp only [indicatorSum, Assignment.value, ht, ih hrest]

theorem allPredicates_congr {a b : Assignment} {terms : List Predicate}
    (h : ∀ x ∈ terms.map (·.var), a x.name = b x.name) :
    allPredicates a terms = allPredicates b terms := by
  induction terms with
  | nil => rfl
  | cons t terms ih =>
    obtain ⟨ht, hrest⟩ := List.forall_mem_cons.1 h
    simp only [allPredicates, Assignment.value, ht, ih hrest]

theorem mapM_value_congr {a b : Assignment} {vars : List Variable}
    (h : ∀ x ∈ vars, a x.name = b x.name) : vars.mapM a.value = vars.mapM b.value := by
  induction vars with
  | nil => rfl
  | cons x vars ih =>
    obtain ⟨hx, hrest⟩ := List.forall_mem_cons.1 h
    simp only [List.mapM_cons, Assignment.value, hx, ih hrest]

/-- The violation of a constraint depends on what an assignment says of its variables only. -/
theorem violation_congr {a b : Assignment} {c : Constraint}
    (h : ∀ x ∈ c.vars, a x.name = b x.name) : c.violation a = c.violation b := by
  obtain ⟨name, weight, body⟩ := c
  cases body with
  | linear terms op rhs => simp only [violation, linearSum_congr h]
  | pseudoBoolean terms op rhs => simp only [violation, indicatorSum_congr h]
  | conflict terms => simp only [violation, allPredicates_congr h]
  | allDifferent vars =>
    have hvalues : vars.mapM a.value = vars.mapM b.value := mapM_value_congr h
    simp only [violation, hvalues]

end Constraint

end WeightedCsp

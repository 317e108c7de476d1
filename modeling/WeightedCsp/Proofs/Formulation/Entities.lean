import WeightedCsp.Formulation.Basic
import WeightedCsp.Proofs.Csp.Comparison
import WeightedCsp.Proofs.Csp.Nnf
import WeightedCsp.Proofs.Model

/-!
# What is said for one entity

The expressions of a variable say that its value lies in the domain and that its indicators tell
the value (`allHold_variableExprs`).  Where the indicators tell the values, the expressions of a
hard constraint say what the constraint demands (`allHold_hard`).  Those of a soft constraint keep
its penalty at or above the violation (`amount_le_penalty`), and hold where the penalty equals the
violation and the two parts of an equation are what it falls short and goes beyond by
(`allHold_soft`).
-/

namespace WeightedCsp

variable {value : String → Int}

namespace Formulation

/-! ### Variables -/

/-- The indicators of the variables tell their values. -/
def Indicated (value : String → Int) (xs : List Variable) : Prop :=
  ∀ x ∈ xs, ∀ k ∈ x.domain,
    value (Names.indicator x.name k) = if value x.name = k then 1 else 0

/-- An indicator is one where its variable has the value, and zero elsewhere. -/
theorem allHold_indicatorExprs {name : String} {k : Int} :
    Expr.AllHold value (indicatorExprs name k) ↔
      value (Names.indicator name k) = if value name = k then 1 else 0 := by
  simp only [indicatorExprs, Expr.AllHold, Expr.holds_intRange, Expr.Holds, Expr.holds_ge,
    Expr.holds_le, and_true]
  split_ifs with h
  · omega
  · constructor
    · rintro ⟨⟨h₀, h₁⟩, h₂, h₃, -⟩
      by_contra hne
      have hle := h₂ (by omega)
      have hge := h₃ (by omega)
      omega
    · intro h₀
      omega

/-- **Variables.** What is said of one is that it keeps its domain and its indicators are right. -/
theorem allHold_variableExprs {x : Variable} :
    Expr.AllHold value (variableExprs x) ↔ value x.name ∈ x.domain ∧ Indicated value [x] := by
  simp only [variableExprs, Indicated, List.forall_mem_singleton]
  refine and_congr Iff.rfl ?_
  rw [Expr.allHold_iff, List.forall_mem_flatMap]
  refine forall₂_congr fun k _ => ?_
  rw [← Expr.allHold_iff]
  exact allHold_indicatorExprs

theorem allHold_flatMap_variableExprs {xs : List Variable} :
    Expr.AllHold value (xs.flatMap variableExprs) ↔ InDomains value xs ∧ Indicated value xs := by
  rw [Expr.allHold_iff, List.forall_mem_flatMap]
  simp only [← Expr.allHold_iff, allHold_variableExprs, Indicated, InDomains,
    List.forall_mem_singleton]
  constructor
  · intro h
    exact ⟨fun x hx => (h x hx).1, fun x hx => (h x hx).2⟩
  · rintro ⟨h₁, h₂⟩ x hx
    exact ⟨h₁ x hx, h₂ x hx⟩

/-! ### Comparisons -/

/-- Penalties of an equation: what it falls short and goes beyond by. -/
def Split (value : String → Int) (name : String) (op : Comparator) (lhs rhs : Int) : Prop :=
  op = .eq → value (Names.deficit name) = Comparator.ge.amount lhs rhs ∧
    value (Names.surplus name) = Comparator.le.amount lhs rhs

/-- A relaxed comparison implies a penalty that is high enough. -/
theorem amount_le_of_relaxed {name : String} (price : Nat) {terms : List NamedTerm}
    {op : Comparator} {rhs : Int} {range : Int × Int}
    (h : Expr.AllHold value (comparisonExprs name (.soft price) terms op rhs range)) :
    op.amount (Expr.total value terms) rhs ≤ value (Names.penalty name) := by
  cases op with
  | eq | le | lt | ge | gt =>
    simp only [comparisonExprs, relaxation, List.cons_append, List.nil_append, Expr.AllHold,
      Expr.holds_intRange, Expr.Holds, Comparator.Holds, Expr.total_cons, Expr.total_nil,
      Expr.total_append] at h
    simp only [Comparator.amount]
    omega

/-- A penalty that is the violation satisfies the relaxed comparison. -/
theorem relaxed_of_amount {name : String} {price : Nat} {terms : List NamedTerm}
    {op : Comparator} {rhs lo hi : Int} (hfits : Comparator.Fits rhs lo hi)
    (hlo : lo ≤ Expr.total value terms) (hhi : Expr.total value terms ≤ hi)
    (hpen : value (Names.penalty name) = op.amount (Expr.total value terms) rhs)
    (hsplit : Split value name op (Expr.total value terms) rhs) :
    Expr.AllHold value (comparisonExprs name (.soft price) terms op rhs (lo, hi)) := by
  have hbound := Comparator.amount_le_maxViolation op hfits hlo hhi
  cases op with
  | eq =>
    obtain ⟨hdeficit, hsurplus⟩ := hsplit rfl
    have hge := Comparator.amount_le_maxViolation .ge hfits hlo hhi
    have hle := Comparator.amount_le_maxViolation .le hfits hlo hhi
    simp only [comparisonExprs, relaxation, List.cons_append, List.nil_append, Expr.AllHold,
      Expr.holds_intRange, Expr.Holds, Comparator.Holds, Expr.total_cons, Expr.total_nil,
      Expr.total_append, hpen, hdeficit, hsurplus, and_true]
    simp only [Comparator.amount] at *
    omega
  | le | lt | ge | gt =>
    simp only [comparisonExprs, relaxation, List.cons_append, List.nil_append, Expr.AllHold,
      Expr.holds_intRange, Expr.Holds, Comparator.Holds, Expr.total_cons, Expr.total_nil,
      Expr.total_append, hpen, and_true]
    simp only [Comparator.amount] at *
    omega

/-! ### Terms -/

/-- The terms of a linear constraint sum up to its total. -/
theorem total_linearTerms (terms : List LinearTerm) :
    Expr.total value (terms.map fun t => (t.coeff, t.var.name)) = linearTotal value terms := by
  induction terms with
  | nil => rfl
  | cons t terms ih =>
    rw [List.map_cons, Expr.total_cons, ih]
    rfl

/-- The indicators of a constraint sum up to its total. -/
theorem total_indicatorTerms {terms : List IndicatorTerm}
    (hdomain : ∀ t ∈ terms, t.value ∈ t.var.domain)
    (hind : Indicated value (terms.map (·.var))) :
    Expr.total value (terms.map fun t => (t.coeff, Names.indicator t.var.name t.value)) =
      indicatorTotal value terms := by
  induction terms with
  | nil => rfl
  | cons t terms ih =>
    obtain ⟨hk, hrest⟩ := List.forall_mem_cons.1 hdomain
    rw [List.map_cons, Expr.total_cons, ih hrest fun x hx => hind x (List.mem_cons_of_mem _ hx),
      hind t.var (by simp) t.value hk]
    simp only [indicatorTotal, List.foldr_cons]
    split_ifs <;> omega

/-- A denied predicate is false. -/
theorem holds_deniedExpr {t : Predicate} (hdomain : t.value ∈ t.var.domain)
    (hind : Indicated value [t.var]) : (deniedExpr t).Holds value ↔ ¬ t.Holds value := by
  have hvalue := hind t.var (by simp) t.value hdomain
  unfold deniedExpr Predicate.Holds
  cases hp : t.polarity with
  | true =>
    simp only [↓reduceIte, Expr.holds_le, hvalue, iff_true]
    split_ifs with h
    · simp [h]
    · simp [h]
  | false =>
    simp only [Bool.false_eq_true, ↓reduceIte, Expr.holds_ge, hvalue, iff_false]
    split_ifs with h
    · simp [h]
    · simp [h]

/-- One of several predicates is denied where not all are true. -/
theorem someHolds_denied {terms : List Predicate} (hdomain : ∀ t ∈ terms, t.value ∈ t.var.domain)
    (hind : Indicated value (terms.map (·.var))) :
    (∃ e ∈ terms.map deniedExpr, e.Holds value) ↔ ¬ ∀ t ∈ terms, t.Holds value := by
  have hdenied : ∀ t ∈ terms, ((deniedExpr t).Holds value ↔ ¬ t.Holds value) := by
    intro t ht
    refine holds_deniedExpr (hdomain t ht) fun x hx => ?_
    rw [List.mem_singleton.1 hx]
    exact hind t.var (List.mem_map_of_mem ht)
  push Not
  constructor
  · rintro ⟨e, he, hholds⟩
    obtain ⟨t, ht, rfl⟩ := List.mem_map.1 he
    exact ⟨t, ht, (hdenied t ht).1 hholds⟩
  · rintro ⟨t, ht, hnot⟩
    exact ⟨deniedExpr t, List.mem_map_of_mem ht, (hdenied t ht).2 hnot⟩

/-! ### Constraints -/

/-- The two parts of the penalty of an equation are what it falls short and goes beyond by. -/
def SplitOf (value : String → Int) (c : Constraint) : Prop :=
  match c.body with
  | .linear terms op rhs => Split value c.name op (linearTotal value terms) rhs
  | .pseudoBoolean terms op rhs => Split value c.name op (indicatorTotal value terms) rhs
  | .conflict _ => True
  | .allDifferent _ => True

/-- **Hard constraints.** -/
theorem allHold_hard {c : Constraint} (hc : c.WellFormed) (hweight : c.weight = .hard)
    (hind : Indicated value c.vars) :
    Expr.AllHold value (constraintExprs c) ↔ c.body.Holds value := by
  obtain ⟨name, weight, body⟩ := c
  obtain ⟨-, hbody⟩ := hc
  cases hweight
  cases body with
  | linear terms op rhs =>
    simp only [constraintExprs, comparisonExprs, Expr.AllHold, Expr.Holds, and_true,
      total_linearTerms, Body.Holds]
  | pseudoBoolean terms op rhs =>
    simp only [constraintExprs, comparisonExprs, Expr.AllHold, Expr.Holds, and_true,
      total_indicatorTerms hbody.1 hind, Body.Holds]
  | conflict terms =>
    simp only [constraintExprs, conflictExprs, Expr.AllHold, Expr.Holds, and_true,
      Expr.someHolds_iff, someHolds_denied hbody hind, Body.Holds]
  | allDifferent vars =>
    simp only [constraintExprs, Expr.AllHold, Expr.Holds, and_true, List.pairwise_map, Body.Holds]

/-- **Penalties are high enough.** -/
theorem amount_le_penalty {c : Constraint} (hc : c.WellFormed) {price : Nat}
    (hweight : c.weight = .soft price) (hdiff : isSoftAllDifferent c = false)
    (hind : Indicated value c.vars) (h : Expr.AllHold value (constraintExprs c)) :
    c.amount value ≤ value (Names.penalty c.name) := by
  obtain ⟨name, weight, body⟩ := c
  obtain ⟨-, hbody⟩ := hc
  cases hweight
  cases body with
  | linear terms op rhs =>
    have := amount_le_of_relaxed price h
    rwa [total_linearTerms] at this
  | pseudoBoolean terms op rhs =>
    have := amount_le_of_relaxed price h
    rwa [total_indicatorTerms hbody.1 hind] at this
  | conflict terms =>
    -- A conflict that is met leaves only the disjunct that the penalty is at least one.
    simp only [constraintExprs, conflictExprs, Expr.AllHold, Expr.holds_intRange, Expr.Holds,
      and_true, Expr.someHolds_iff, List.mem_append, or_and_right, exists_or,
      someHolds_denied hbody hind, List.mem_singleton, exists_eq_left, Expr.holds_ge] at h
    simp only [Constraint.amount]
    split_ifs with hall
    · exact h.2.resolve_left (not_not.2 hall)
    · exact h.1.1
  | allDifferent vars => simp [isSoftAllDifferent, Constraint.isSoft, Weight.isHard] at hdiff

/-- **Penalties may be as low as the violations.** -/
theorem allHold_soft {c : Constraint} (hc : c.WellFormed) {price : Nat}
    (hweight : c.weight = .soft price) (hdiff : isSoftAllDifferent c = false)
    (hin : InDomains value c.vars) (hind : Indicated value c.vars)
    (hpen : value (Names.penalty c.name) = c.amount value) (hsplit : SplitOf value c) :
    Expr.AllHold value (constraintExprs c) := by
  obtain ⟨name, weight, body⟩ := c
  obtain ⟨-, hbody⟩ := hc
  cases hweight
  cases body with
  | linear terms op rhs =>
    obtain ⟨lo, hi, hrange, hfits, hlo, hhi, -⟩ := Constraint.linear_fits hbody hin
    simp only [constraintExprs, hrange, rangeOrAll, Option.getD_some]
    refine relaxed_of_amount hfits ?_ ?_ ?_ ?_ <;> rw [total_linearTerms]
    · exact hlo
    · exact hhi
    · exact hpen
    · exact hsplit
  | pseudoBoolean terms op rhs =>
    obtain ⟨lo, hi, hrange, hfits, hlo, hhi, -⟩ := Constraint.indicator_fits value hbody.2
    simp only [constraintExprs, hrange, rangeOrAll, Option.getD_some]
    refine relaxed_of_amount hfits ?_ ?_ ?_ ?_ <;> rw [total_indicatorTerms hbody.1 hind]
    · exact hlo
    · exact hhi
    · exact hpen
    · exact hsplit
  | conflict terms =>
    simp only [Constraint.amount] at hpen
    simp only [constraintExprs, conflictExprs, Expr.AllHold, Expr.holds_intRange, Expr.Holds,
      and_true, Expr.someHolds_iff, List.mem_append, or_and_right, exists_or,
      someHolds_denied hbody hind, List.mem_singleton, exists_eq_left, Expr.holds_ge, hpen]
    -- Met, the penalty is one; otherwise one of the predicates is denied.
    split_ifs with hall
    · simp
    · simp [hall]
  | allDifferent vars => simp [isSoftAllDifferent, Constraint.isSoft, Weight.isHard] at hdiff

/-- **Bounds of penalties.** -/
theorem amount_le_penaltyBound {c : Constraint} (hc : c.WellFormed) {price : Nat}
    (hweight : c.weight = .soft price) (hin : InDomains value c.vars) {bound : Int}
    (hbound : c.penaltyBound? = some bound) : c.amount value ≤ bound := by
  obtain ⟨name, weight, body⟩ := c
  obtain ⟨-, hbody⟩ := hc
  cases hweight
  cases body with
  | linear terms op rhs =>
    obtain ⟨lo, hi, hrange, hfits, hlo, hhi, -⟩ := Constraint.linear_fits hbody hin
    simp only [Constraint.penaltyBound?, hrange, rangeOrAll, Option.getD_some, Constraint.isHard,
      Weight.isHard, Bool.false_eq_true, ↓reduceIte, Option.some.injEq] at hbound
    rw [← hbound]
    exact Comparator.amount_le_maxViolation op hfits hlo hhi
  | pseudoBoolean terms op rhs =>
    obtain ⟨lo, hi, hrange, hfits, hlo, hhi, -⟩ := Constraint.indicator_fits value hbody.2
    simp only [Constraint.penaltyBound?, hrange, rangeOrAll, Option.getD_some, Constraint.isHard,
      Weight.isHard, Bool.false_eq_true, ↓reduceIte, Option.some.injEq] at hbound
    rw [← hbound]
    exact Comparator.amount_le_maxViolation op hfits hlo hhi
  | conflict terms =>
    simp only [Constraint.penaltyBound?, Constraint.isHard, Weight.isHard, Bool.false_eq_true,
      ↓reduceIte, Option.some.injEq] at hbound
    rw [← hbound, Constraint.amount]
    dsimp only
    split_ifs <;> omega
  | allDifferent vars => simp [Constraint.penaltyBound?] at hbound

end Formulation

end WeightedCsp

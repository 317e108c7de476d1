import WeightedCsp.Proofs.Formulation.Names
import WeightedCsp.Proofs.Formulation.Sums

/-!
# Extending assignments to auxiliary variables

Under an assignment of the variables of a model, every auxiliary variable has an intended value
(`Model.meaning`): an indicator tells whether its value is taken, a penalty is a violation, a sum of
penalties is a sum of violations.  Auxiliary names are told apart and none of them is an identifier,
so the intended values extend the assignment (`Model.extended`).

Everything that is ever said of the entities of a model holds for the extension of a feasible
assignment (`allHold_extended`); and whatever satisfies what is said of them is feasible, with
penalties at or above the violations (`sound`).
-/

namespace WeightedCsp

namespace Constraint

/-- What the two sides of a comparison differ by in the direction of `op`. -/
def side (op : Comparator) (value : String → Int) (c : Constraint) : Int :=
  match c.body with
  | .linear terms _ rhs => op.amount (linearTotal value terms) rhs
  | .pseudoBoolean terms _ rhs => op.amount (indicatorTotal value terms) rhs
  | .conflict _ => 0
  | .allDifferent _ => 0

theorem side_congr {op : Comparator} {value value' : String → Int} {c : Constraint}
    (h : ∀ x ∈ c.vars, value x.name = value' x.name) : c.side op value = c.side op value' := by
  obtain ⟨name, weight, body⟩ := c
  cases body with
  | linear terms _ rhs =>
    show op.amount _ rhs = op.amount _ rhs
    rw [linearTotal_congr h]
  | pseudoBoolean terms _ rhs =>
    show op.amount _ rhs = op.amount _ rhs
    rw [indicatorTotal_congr h]
  | conflict _ => rfl
  | allDifferent _ => rfl

end Constraint

namespace Formulation

/-- The penalty of a soft constraint that has one. -/
def penaltyFor (c : Constraint) : Penalty :=
  ⟨c.name, Names.penalty c.name, c.penaltyBound?.getD 0, c.weight.price⟩

/-- A supported soft constraint has a bound for its penalty. -/
theorem exists_penaltyBound {c : Constraint} (hdiff : isSoftAllDifferent c = false) {price : Nat}
    (hweight : c.weight = .soft price) : ∃ bound, c.penaltyBound? = some bound := by
  obtain ⟨name, weight, body⟩ := c
  cases hweight
  cases body with
  | linear _ _ _ => exact ⟨_, rfl⟩
  | pseudoBoolean _ _ _ => exact ⟨_, rfl⟩
  | conflict _ => exact ⟨_, rfl⟩
  | allDifferent _ => simp [isSoftAllDifferent, Constraint.isSoft, Weight.isHard] at hdiff

/-- The penalties of constraints are those of the soft ones among them. -/
theorem filterMap_penaltyOf? {cs : List Constraint}
    (hdiff : ∀ c ∈ cs, isSoftAllDifferent c = false) :
    cs.filterMap penaltyOf? = (cs.filter (·.isSoft)).map penaltyFor := by
  induction cs with
  | nil => rfl
  | cons c cs ih =>
    obtain ⟨hc, hrest⟩ := List.forall_mem_cons.1 hdiff
    cases hweight : c.weight with
    | hard =>
      have hnone : penaltyOf? c = none := by simp [penaltyOf?, hweight]
      have hsoft : c.isSoft = false := by simp [Constraint.isSoft, hweight, Weight.isHard]
      rw [List.filterMap_cons, hnone, List.filter_cons, hsoft, ih hrest]
      rfl
    | soft price =>
      obtain ⟨bound, hbound⟩ := exists_penaltyBound hc hweight
      have hsome : penaltyOf? c = some (penaltyFor c) := by
        simp [penaltyOf?, penaltyFor, hweight, hbound, Weight.price]
      have hsoft : c.isSoft = true := by simp [Constraint.isSoft, hweight, Weight.isHard]
      rw [List.filterMap_cons, hsome, List.filter_cons, hsoft, ih hrest]
      rfl

/-- The penalties of a price are those of the constraints of this price. -/
theorem ofPrice_map_penaltyFor (m : Model) (price : Nat) :
    ofPrice price (m.softConstraints.map penaltyFor) = (m.ofPrice price).map penaltyFor := by
  rw [ofPrice, List.filter_map, Model.ofPrice_eq_filter]
  rfl

end Formulation

namespace Model

/-- The intended value of an auxiliary variable under an assignment. -/
def meaning (m : Model) (value : String → Int) : Names.Aux → Int
  | .indicator x k => if value x = k then 1 else 0
  | .penalty c => (m.findConstraint? c).elim 0 (·.amount value)
  | .deficit c => (m.findConstraint? c).elim 0 (·.side .ge value)
  | .surplus c => (m.findConstraint? c).elim 0 (·.side .le value)
  | .objective => m.cost value
  | .tier price => m.tierTotal value price
  | .heaviest => m.tiers.head?.elim 0 fun t => m.tierTotal value t.price
  | .lighter => (m.tiers.tail.map fun t => (t.price : Int) * m.tierTotal value t.price).sum
  | .lighterTier price => m.tierTotal value price

open Classical in
/-- The assignment with the intended values of all auxiliary variables. -/
noncomputable def extended (m : Model) (value : String → Int) (name : String) : Int :=
  if h : ∃ a : Names.Aux, a.Valid ∧ a.name = name then m.meaning value h.choose else value name

variable {m : Model} {value : String → Int}

/-- The extended assignment gives each auxiliary name its meaning. -/
theorem extended_name (a : Names.Aux) (ha : a.Valid) :
    m.extended value a.name = m.meaning value a := by
  have h : ∃ b : Names.Aux, b.Valid ∧ b.name = a.name := ⟨a, ha, rfl⟩
  rw [extended, dif_pos h, Names.Aux.name_injective h.choose_spec.1 ha h.choose_spec.2]

/-- The extended assignment keeps what is given to valid names. -/
theorem extended_of_isValid {name : String} (h : Identifier.isValid name) :
    m.extended value name = value name := by
  rw [extended, dif_neg]
  rintro ⟨a, -, rfl⟩
  rw [Names.Aux.not_isValid_name] at h
  cases h

/-- The model passes the checks, and no name of a variable begins like a penalty. -/
structure Formulable (m : Model) : Prop extends m.WellFormed where
  /-- No name of a variable begins like a penalty. -/
  notReserved : ∀ x ∈ m.vars, Names.isReserved x.name = false
  /-- No all-different constraint is soft. -/
  supported : ∀ c ∈ m.constraints, Formulation.isSoftAllDifferent c = false

theorem formulable_of_built (hm : m.Built)
    (hnames : ∀ x ∈ m.vars, Names.isReserved x.name = false)
    (hsupported : Formulation.checkSupported m = .ok ()) : m.Formulable := by
  refine ⟨hm.wellFormed, hnames, fun c hc => ?_⟩
  unfold Formulation.checkSupported at hsupported
  split at hsupported
  · cases hsupported
  · next hnone => simpa using List.find?_eq_none.1 hnone c hc

/-! ### The extension keeps the model -/

namespace Formulable

theorem extended_var (hm : m.Formulable) {x : Variable} (hx : x ∈ m.vars) :
    m.extended value x.name = value x.name := extended_of_isValid (hm.varNames x hx)

/-- The extended assignment stays in the domains. -/
theorem extended_inDomains (hm : m.Formulable) (hin : InDomains value m.vars) :
    InDomains (m.extended value) m.vars := by
  intro x hx
  rw [hm.extended_var hx]
  exact hin x hx

/-- Indicators are true where their variable has their value. -/
theorem indicated_extended (hm : m.Formulable) :
    Formulation.Indicated (m.extended value) m.vars := by
  intro x hx k hk
  rw [hm.extended_var hx]
  exact extended_name (.indicator x.name k) ⟨hm.varNames x hx, hm.notReserved x hx⟩

section Constraints

variable {c : Constraint}

theorem extended_vars (hm : m.Formulable) (hc : c ∈ m.constraints) :
    ∀ x ∈ c.vars, m.extended value x.name = value x.name :=
  fun x hx => hm.extended_var (hm.declared c hc x hx)

/-- What a constraint charges is not changed by the extension. -/
theorem amount_extended (hm : m.Formulable) (hc : c ∈ m.constraints) :
    c.amount (m.extended value) = c.amount value :=
  Constraint.amount_congr (hm.extended_vars hc)

theorem extended_penalty (hm : m.Formulable) (hc : c ∈ m.constraints) :
    m.extended value (Names.penalty c.name) = c.amount value := by
  refine (extended_name (.penalty c.name) (hm.constraints c hc).name).trans ?_
  rw [meaning, hm.findConstraint? hc]
  rfl

/-- Its deficit and surplus are the two sides of an equation. -/
theorem splitOf_extended (hm : m.Formulable) (hc : c ∈ m.constraints) :
    Formulation.SplitOf (m.extended value) c := by
  have hname := (hm.constraints c hc).name
  have hdeficit : m.extended value (Names.deficit c.name) = c.side .ge (m.extended value) := by
    refine (extended_name (.deficit c.name) hname).trans ?_
    rw [meaning, hm.findConstraint? hc, Constraint.side_congr (hm.extended_vars hc)]
    rfl
  have hsurplus : m.extended value (Names.surplus c.name) = c.side .le (m.extended value) := by
    refine (extended_name (.surplus c.name) hname).trans ?_
    rw [meaning, hm.findConstraint? hc, Constraint.side_congr (hm.extended_vars hc)]
    rfl
  obtain ⟨name, weight, body⟩ := c
  cases body with
  | linear terms op rhs => exact fun _ => ⟨hdeficit, hsurplus⟩
  | pseudoBoolean terms op rhs => exact fun _ => ⟨hdeficit, hsurplus⟩
  | conflict _ => trivial
  | allDifferent _ => trivial

/-! ### What is said of entities -/

/-- The extended assignment satisfies what is said of variables. -/
theorem allHold_extended_vars (hm : m.Formulable) (hin : InDomains value m.vars) :
    Expr.AllHold (m.extended value) (m.vars.flatMap Formulation.variableExprs) :=
  Formulation.allHold_flatMap_variableExprs.2 ⟨hm.extended_inDomains hin, hm.indicated_extended⟩

/-- **Completeness for one constraint.** -/
theorem allHold_extended (hm : m.Formulable) (hfeasible : m.Feasible value)
    (hc : c ∈ m.constraints) :
    Expr.AllHold (m.extended value) (Formulation.constraintExprs c) := by
  have hwell := hm.constraints c hc
  have hind : Formulation.Indicated (m.extended value) c.vars :=
    fun x hx => hm.indicated_extended x (hm.declared c hc x hx)
  obtain ⟨hin, hhard⟩ := hm.feasible_iff.1 hfeasible
  cases hweight : c.weight with
  | hard =>
    rw [Formulation.allHold_hard hwell hweight hind, ← Constraint.amount_eq_zero_iff,
      hm.amount_extended hc, Constraint.amount_eq_zero_iff]
    exact hhard c hc hweight
  | soft price =>
    refine Formulation.allHold_soft hwell hweight (hm.supported c hc) ?_ hind ?_
      (hm.splitOf_extended hc)
    · exact fun x hx => hm.extended_inDomains hin x (hm.declared c hc x hx)
    · rw [hm.extended_penalty hc, hm.amount_extended hc]

/-- **Soundness for constraints.** Values that satisfy what is said of the variables and of the
given constraints satisfy the hard ones, and their penalties are high enough for the soft ones. -/
theorem sound (hm : m.Formulable) {cs : List Constraint} (hcs : ∀ c ∈ cs, c ∈ m.constraints)
    (hvars : Expr.AllHold value (m.vars.flatMap Formulation.variableExprs))
    (h : Expr.AllHold value (cs.flatMap Formulation.constraintExprs)) :
    InDomains value m.vars ∧ (∀ c ∈ cs, c.weight = .hard → c.body.Holds value) ∧
      ∀ c ∈ cs, c.isSoft → c.amount value ≤ value (Names.penalty c.name) := by
  obtain ⟨hin, hind⟩ := Formulation.allHold_flatMap_variableExprs.1 hvars
  rw [Expr.allHold_iff, List.forall_mem_flatMap] at h
  have hind' : ∀ c ∈ cs, Formulation.Indicated value c.vars :=
    fun c hc x hx => hind x (hm.declared c (hcs c hc) x hx)
  refine ⟨hin, fun c hc hweight => ?_, fun c hc hsoft => ?_⟩
  · have hown := Expr.allHold_iff.2 (h c hc)
    exact (Formulation.allHold_hard (hm.constraints c (hcs c hc)) hweight (hind' c hc)).1 hown
  · have hown := Expr.allHold_iff.2 (h c hc)
    obtain ⟨-, price, hweight⟩ :=
      mem_softConstraints.1 (List.mem_filter.2 ⟨hcs c hc, hsoft⟩)
    exact Formulation.amount_le_penalty (hm.constraints c (hcs c hc)) hweight
      (hm.supported c (hcs c hc)) (hind' c hc) hown

end Constraints

/-! ### Sums of penalties -/

/-- Penalties are within their ranges. -/
theorem within_extended (hm : m.Formulable) (hin : InDomains value m.vars) {cs : List Constraint}
    (hcs : ∀ c ∈ cs, c ∈ m.softConstraints) :
    Formulation.Within (m.extended value)
      (Formulation.summands (cs.map Formulation.penaltyFor)) := by
  intro s hs
  rw [Formulation.summands, List.map_map] at hs
  obtain ⟨c, hc, rfl⟩ := List.mem_map.1 hs
  obtain ⟨hmem, price, hweight⟩ := mem_softConstraints.1 (hcs c hc)
  have hvars : InDomains value c.vars := fun x hx => hin x (hm.declared c hmem x hx)
  show 0 ≤ (1 : Int) ∧ 0 ≤ m.extended value (Names.penalty c.name) ∧
    m.extended value (Names.penalty c.name) ≤ c.penaltyBound?.getD 0
  rw [hm.extended_penalty hmem]
  refine ⟨by omega, c.amount_nonneg value, ?_⟩
  obtain ⟨bound, hbound⟩ := Formulation.exists_penaltyBound (hm.supported c hmem) hweight
  rw [hbound, Option.getD_some]
  exact Formulation.amount_le_penaltyBound (hm.constraints c hmem) hweight hvars hbound

/-- The penalties of constraints sum up to what these charge. -/
theorem summed_extended (hm : m.Formulable) {cs : List Constraint}
    (hcs : ∀ c ∈ cs, c ∈ m.constraints) :
    Formulation.summed (m.extended value) (Formulation.summands (cs.map Formulation.penaltyFor)) =
      (cs.map (·.amount value)).sum := by
  rw [Formulation.summed_summands, List.map_map]
  exact congrArg List.sum (List.map_congr_left fun c hc => hm.extended_penalty (hcs c hc))

/-- A name for the total violation of a price is the sum of the penalties in the extension. -/
theorem isSum_total_extended (hm : m.Formulable) (hin : InDomains value m.vars) {name : String}
    {price : Nat} (hname : m.extended value name = m.tierTotal value price) :
    Formulation.IsSum (m.extended value) name
      (Formulation.summands ((m.ofPrice price).map Formulation.penaltyFor)) := by
  have hsoft : ∀ c ∈ m.ofPrice price, c ∈ m.softConstraints := by
    intro c hc
    obtain ⟨hmem, hweight⟩ := mem_ofPrice.1 hc
    exact mem_softConstraints.2 ⟨hmem, price, hweight⟩
  refine (hm.within_extended hin hsoft).isSum ?_
  rw [hname, hm.summed_extended fun c hc => (mem_ofPrice.1 hc).1]
  rfl

/-- The variable of a tier is the total of its price. -/
theorem extended_tier (price : Nat) :
    m.extended value (Names.tier price) = m.tierTotal value price :=
  extended_name (.tier price) trivial

/-! ### The objective -/

/-- The prices of penalties are those of soft constraints. -/
theorem mem_prices_softConstraints {w : Nat} :
    w ∈ Formulation.prices (m.softConstraints.map Formulation.penaltyFor) ↔
      ∃ c ∈ m.softConstraints, c.weight.price = w := by
  rw [Formulation.mem_prices]
  constructor
  · rintro ⟨p, hp, rfl⟩
    obtain ⟨c, hc, rfl⟩ := List.mem_map.1 hp
    exact ⟨c, hc, rfl⟩
  · rintro ⟨c, hc, rfl⟩
    exact ⟨_, List.mem_map_of_mem hc, rfl⟩

/-- Summing by prices, and these sums with the prices, is summing with the prices. -/
theorem sum_prices_ofPrice (m : Model) (amount : Constraint → Int) :
    ((Formulation.prices (m.softConstraints.map Formulation.penaltyFor)).map fun w : Nat =>
      (w : Int) * ((m.ofPrice w).map amount).sum).sum =
      (m.softConstraints.map fun c => (c.weight.price : Int) * amount c).sum := by
  have hall : ∀ c ∈ m.softConstraints,
      c.weight.price ∈ Formulation.prices (m.softConstraints.map Formulation.penaltyFor) :=
    fun c hc => mem_prices_softConstraints.2 ⟨c, hc, rfl⟩
  rw [← Formulation.sum_byPrice (Formulation.nodup_prices _) hall]
  refine congrArg List.sum (List.map_congr_left fun w _ => ?_)
  rw [ofPrice_eq_filter]

/-- **Soundness for the objective.** It is the weighted sum of the penalties. -/
theorem objective_sound {f : Formulation} {exprs : List Expr} (hobj : f.objective = .ok exprs)
    (hpenalties : f.penalties = m.softConstraints.map Formulation.penaltyFor)
    (h : Expr.AllHold value exprs) :
    value Names.objective = (m.softConstraints.map fun c =>
      (c.weight.price : Int) * value (Names.penalty c.name)).sum ∧ 0 ≤ value Names.objective := by
  obtain ⟨htiers, hvalue, hnonneg, -⟩ := (Formulation.allHold_objective hobj).1 h
  rw [hpenalties] at htiers hvalue
  refine ⟨?_, hnonneg⟩
  rw [hvalue, Formulation.summed, List.map_map, ← sum_prices_ofPrice]
  refine congrArg List.sum (List.map_congr_left fun w hw => ?_)
  have hsum := (htiers w hw).1
  rw [Formulation.ofPrice_map_penaltyFor, Formulation.summed_summands, List.map_map] at hsum
  show (w : Int) * value (Names.tier w) = _
  rw [hsum]
  rfl

/-- **Completeness for the objective.** -/
theorem objective_extended (hm : m.Formulable) (hin : InDomains value m.vars) {f : Formulation}
    {exprs : List Expr} (hobj : f.objective = .ok exprs)
    (hpenalties : f.penalties = m.softConstraints.map Formulation.penaltyFor) :
    Expr.AllHold (m.extended value) exprs := by
  have htier : ∀ w, Formulation.IsSum (m.extended value) (Names.tier w)
      (Formulation.summands (Formulation.ofPrice w f.penalties)) := by
    intro w
    rw [hpenalties, Formulation.ofPrice_map_penaltyFor]
    exact hm.isSum_total_extended hin (extended_tier w)
  refine (Formulation.allHold_objective hobj).2 ⟨fun w _ => htier w, Formulation.Within.isSum ?_ ?_⟩
  · intro s hs
    obtain ⟨w, -, rfl⟩ := List.mem_map.1 hs
    obtain ⟨-, hnonneg, hbound⟩ := htier w
    exact ⟨Int.natCast_nonneg w, hnonneg, hbound⟩
  · have hcost : m.extended value Names.objective = m.cost value :=
      extended_name .objective trivial
    rw [hcost, cost, ← sum_prices_ofPrice, hpenalties, Formulation.summed, List.map_map]
    refine congrArg List.sum (List.map_congr_left fun w _ => ?_)
    show _ = (w : Int) * m.extended value (Names.tier w)
    rw [extended_tier, tierTotal]

end Formulable

end Model

end WeightedCsp

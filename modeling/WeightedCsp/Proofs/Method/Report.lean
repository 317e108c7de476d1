import WeightedCsp.Proofs.Csp.Session
import WeightedCsp.Proofs.Method.Totals

/-!
# What a report says

A report is computed anew from the solution it is on.  For a solution that gives every variable of
the model a value of its domain the model can be evaluated, so the report has the amount of every
constraint: its totals are the totals of the tiers (`tierTotals_eq_ok`), and the objective is what
the values cost, provided that this fits (`objective?_eq_some`).
-/

namespace WeightedCsp

/-- The violation of a constraint for given values. -/
def Constraint.violated (value : String → Int) (c : Constraint) : Violation :=
  ⟨c.name, c.weight, c.amount value⟩

@[simp] theorem Constraint.violated_weight (value : String → Int) (c : Constraint) :
    (c.violated value).weight = c.weight := rfl

@[simp] theorem Constraint.violated_amount (value : String → Int) (c : Constraint) :
    (c.violated value).amount = c.amount value := rfl

variable {m : Model} {value : String → Int}

namespace Model

/-- Violations are the amounts where these are known. -/
theorem mapM_violation {cs : List Constraint} {a : Assignment}
    (h : ∀ c ∈ cs, c.violation a = .ok (c.amount value)) :
    (cs.mapM fun c => do return (⟨c.name, c.weight, ← c.violation a⟩ : Violation)) =
      .ok (cs.map (·.violated value)) := by
  induction cs with
  | nil => rfl
  | cons c cs ih =>
    obtain ⟨hc, hcs⟩ := List.forall_mem_cons.1 h
    rw [List.mapM_cons, ih hcs, hc]
    rfl

/-- **Evaluation.** An assignment of values in the domains can be evaluated. -/
theorem WellFormed.evaluate_eq_ok (hm : m.WellFormed) (hin : InDomains value m.vars)
    {a : Assignment} (ha : ∀ x ∈ m.vars, a x.name = some (value x.name)) :
    m.evaluate a = .ok (m.constraints.map (·.violated value)) := by
  refine mapM_violation fun c hc => ?_
  rw [← hm.violation_eq_ok hin hc]
  exact Constraint.violation_congr fun x hx => ha x (hm.declared c hc x hx)

/-- No hard constraint counts where none is violated. -/
theorem hardCount_eq_zero_iff {cs : List Constraint} :
    hardCount (cs.map (·.violated value)) = 0 ↔
      ∀ c ∈ cs, c.weight = .hard → c.amount value = 0 := by
  rw [hardCount, List.length_eq_zero_iff, List.filter_eq_nil_iff, List.forall_mem_map]
  refine forall₂_congr fun c _ => ?_
  rw [Constraint.violated_weight, Constraint.violated_amount, Bool.and_eq_true, decide_eq_true_iff]
  have hnonneg := c.amount_nonneg value
  cases c.weight with
  | hard =>
    simp only [Weight.isHard, true_and, true_implies]
    omega
  | soft w => simp [Weight.isHard]

theorem hardCount_eq_zero (hm : m.WellFormed) (hfeasible : m.Feasible value) :
    hardCount (m.constraints.map (·.violated value)) = 0 := by
  refine hardCount_eq_zero_iff.2 fun c hc hweight => ?_
  rw [Constraint.amount_eq_zero_iff]
  exact (hm.feasible_iff.1 hfeasible).2 c hc hweight

end Model

namespace Report

/-! ### Totals and objective -/

/-- **Totals.** The totals of a report are those of the tiers, the highest price first. -/
theorem tierTotals_eq_ok {totals : List (Nat × Int)}
    (h : tierTotals [] (m.constraints.map (·.violated value)) = .ok totals) :
    totals = m.tiers.map fun t => (t.price, m.tierTotal value t.price) := by
  obtain ⟨-, rfl⟩ := (tierTotals_eq_ok_iff (fun c => c.amount_nonneg value) m).1 h
  refine List.map_congr_left fun t ht => ?_
  rw [Tier.entry, Tier.total, Model.members_tiers ht, Model.tierTotal]

/-- The objective is what the values cost, provided that this fits. -/
theorem objective?_eq_some (hfits : m.cost value ≤ Word.greatest) :
    objective? 0 (m.constraints.map (·.violated value)) = some (m.cost value) := by
  have hobjective := objective?_eq_fit? (fun c => c.amount_nonneg value) m.constraints
    (Int.le_refl 0) (by decide)
  have hcost : 0 + weighted (·.amount value) m.constraints = m.cost value := Int.zero_add _
  have hnonneg : 0 ≤ m.cost value := weighted_nonneg (fun c => c.amount_nonneg value) m.constraints
  rw [hcost, Word.fit?_of_inRange ⟨by unfold Word.least; omega, hfits⟩] at hobjective
  exact hobjective

/-! ### Reports -/

/-- With a value for each variable, the assignment is the one of the solution. -/
theorem assignmentOf_eq {s : Solution}
    (hget : ∀ x ∈ m.vars, s.get? x.name = some (s.value x.name)) :
    assignmentOf m s = m.vars.map fun x => (x.name, s.value x.name) := by
  rw [assignmentOf, ← List.filterMap_eq_map]
  refine List.filterMap_congr fun x hx => ?_
  rw [hget x hx]
  rfl

theorem new_status {method : String} {status : Phase} {best : Option Solution}
    {solves elapsed : Nat} {r : Report} (h : new method m status best solves elapsed = .ok r) :
    r.status = status ∧ r.solves = solves := by
  unfold new at h
  cases best with
  | none =>
    cases h
    exact ⟨rfl, rfl⟩
  | some s =>
    dsimp only at h
    split at h
    · cases h
      exact ⟨rfl, rfl⟩
    · obtain ⟨totals, -, h₁⟩ := Checked.bind_eq_ok.1 h
      cases h₁
      exact ⟨rfl, rfl⟩

/-- **Reports.** A report on a solution with values in the domains is complete. -/
theorem new_eq_ok (hm : m.WellFormed) {s : Solution}
    (hget : ∀ x ∈ m.vars, s.get? x.name = some (s.value x.name)) (hin : InDomains s.value m.vars)
    {method : String} {status : Phase} {solves elapsed : Nat} {r : Report}
    (h : new method m status (some s) solves elapsed = .ok r) :
    r.assignment = m.vars.map (fun x => (x.name, s.value x.name)) ∧
    r.hardViolations = Model.hardCount (m.constraints.map (·.violated s.value)) ∧
    r.tiers = m.tiers.map (fun t => (t.price, m.tierTotal s.value t.price)) ∧
    r.objective = objective? 0 (m.constraints.map (·.violated s.value)) := by
  unfold new at h
  simp only [hm.evaluate_eq_ok hin hget] at h
  obtain ⟨totals, htotals, h₁⟩ := Checked.bind_eq_ok.1 h
  cases h₁
  exact ⟨assignmentOf_eq hget, rfl, tierTotals_eq_ok htotals, rfl⟩

end Report

end WeightedCsp

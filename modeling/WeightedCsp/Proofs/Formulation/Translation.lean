import Mathlib
import WeightedCsp.Proofs.Formulation.Extension

/-!
# Formulating a model keeps its meaning

Formulating the entities of a model one after the other says of each what it says on its own
(`addVariables_eq`, `addConstraints_eq`), because no name comes up twice.  Hence the values that
satisfy a formulated model are the feasible assignments of the model with penalties at or above the
violations, and the objective is the weighted sum of the penalties (`addModel_meaning`).
-/

namespace WeightedCsp

namespace Formulation

/-! ### Entities one after the other -/

/-- A variable with a new name is formulated. -/
theorem addVariable_eq {f : Formulation} {x : Variable} (hfresh : x.name ∉ f.vars.map (·.name)) :
    f.addVariable x = .ok (variableExprs x, { f with vars := f.vars ++ [x] }) := by
  simp only [addVariable, find?_key_eq_none hfresh]

/-- Variables of different names are declared one after the other. -/
theorem addVariables_eq {xs : List Variable} {f : Formulation}
    (hnodup : ((f.vars ++ xs).map (·.name)).Nodup) :
    addVariables xs f = .ok (xs.flatMap variableExprs) { f with vars := f.vars ++ xs } := by
  induction xs generalizing f with
  | nil =>
    rw [List.append_nil]
    rfl
  | cons x xs ih =>
    have hfresh : x.name ∉ f.vars.map (·.name) := notMem_of_nodup_append hnodup
    rw [List.append_cons] at hnodup
    have hrest := ih (f := { f with vars := f.vars ++ [x] }) hnodup
    simp only [addVariables, addVariable_eq hfresh, hrest, List.flatMap_cons, List.append_assoc,
      List.singleton_append]

theorem firstUnknown?_eq_none {f : Formulation} (hvars : (f.vars.map (·.name)).Nodup)
    {xs : List Variable} (hxs : ∀ x ∈ xs, x ∈ f.vars) : f.firstUnknown? xs = none := by
  refine List.find?_eq_none.2 fun x hx => ?_
  simp [find?_key hvars (hxs x hx)]

/-- A constraint with a new name, over declared variables, is formulated. -/
theorem addConstraint_eq {f : Formulation} {c : Constraint}
    (hfresh : c.name ∉ f.constraints.map (·.name)) (hvars : (f.vars.map (·.name)).Nodup)
    (hdeclared : ∀ x ∈ c.vars, x ∈ f.vars) (hdiff : isSoftAllDifferent c = false) :
    f.addConstraint c = .ok (constraintExprs c,
      { f with
        constraints := f.constraints ++ [c]
        penalties := f.penalties ++ (penaltyOf? c).toList }) := by
  simp [addConstraint, find?_key_eq_none hfresh, firstUnknown?_eq_none hvars hdeclared, hdiff]

/-- Constraints of different names are stated one after the other. -/
theorem addConstraints_eq {cs : List Constraint} {f : Formulation}
    (hnodup : ((f.constraints ++ cs).map (·.name)).Nodup) (hvars : (f.vars.map (·.name)).Nodup)
    (hdeclared : ∀ c ∈ cs, ∀ x ∈ c.vars, x ∈ f.vars)
    (hdiff : ∀ c ∈ cs, isSoftAllDifferent c = false) :
    addConstraints cs f = .ok (cs.flatMap constraintExprs)
      { f with
        constraints := f.constraints ++ cs
        penalties := f.penalties ++ cs.filterMap penaltyOf? } := by
  induction cs generalizing f with
  | nil =>
    rw [List.append_nil, List.filterMap_nil, List.append_nil]
    rfl
  | cons c cs ih =>
    obtain ⟨hc, hrest⟩ := List.forall_mem_cons.1 hdeclared
    obtain ⟨hdiff₁, hdiff₂⟩ := List.forall_mem_cons.1 hdiff
    have hfresh : c.name ∉ f.constraints.map (·.name) := notMem_of_nodup_append hnodup
    rw [List.append_cons] at hnodup
    have hpenalties : f.penalties ++ (penaltyOf? c).toList ++ cs.filterMap penaltyOf? =
        f.penalties ++ (c :: cs).filterMap penaltyOf? := by
      rw [List.filterMap_cons, List.append_assoc]
      cases penaltyOf? c <;> rfl
    have hothers := ih
      (f := { f with
        constraints := f.constraints ++ [c]
        penalties := f.penalties ++ (penaltyOf? c).toList }) hnodup hvars hrest hdiff₂
    rw [hpenalties] at hothers
    simp only [addConstraints, addConstraint_eq hfresh hvars hc hdiff₁, hothers,
      List.flatMap_cons, List.append_assoc, List.singleton_append]

/-! ### Models -/

/-- What is left when a model is formulated. -/
def ofModel (m : Model) : Formulation := ⟨m.vars, m.constraints, m.softConstraints.map penaltyFor⟩

/-- What is said of the variables and of some constraints of a model. -/
def sayings (m : Model) (cs : List Constraint) : List Expr :=
  m.vars.flatMap variableExprs ++ cs.flatMap constraintExprs

/-- What is said of the entities of a model. -/
def entityExprs (m : Model) : List Expr := sayings m m.constraints

theorem addVariables_model {m : Model} (hm : m.Formulable) :
    addVariables m.vars .empty = .ok (m.vars.flatMap variableExprs) ⟨m.vars, [], []⟩ :=
  addVariables_eq hm.varsNodup

theorem addConstraints_model {m : Model} (hm : m.Formulable) :
    addConstraints m.constraints ⟨m.vars, [], []⟩ =
      .ok (m.constraints.flatMap constraintExprs) (ofModel m) := by
  have h := addConstraints_eq (f := ⟨m.vars, [], []⟩) hm.constraintsNodup hm.varsNodup hm.declared
    hm.supported
  rw [filterMap_penaltyOf? hm.supported] at h
  exact h

theorem hasObjective_ofModel (m : Model) : (ofModel m).hasObjective ↔ m.softConstraints ≠ [] := by
  simp [hasObjective, ofModel]

/-- The objective fails by an overflow only. -/
theorem objective_error {f : Formulation} (hobj : f.hasObjective) {e : Failure FormulationError}
    (h : f.objective = .error e) : ∃ t, e = .fault t := by
  unfold objective at h
  rw [if_pos hobj] at h
  -- Both the sums of the tiers and the sum over them can overflow, and nothing else can fail.
  cases htiers : tierSums f.penalties (prices f.penalties) with
  | error t =>
    rw [htiers] at h
    cases h
    exact ⟨t, rfl⟩
  | ok r =>
    rw [htiers] at h
    replace h : (do
      let last ← (sumDefinition Names.objective r.2 : Checked (List Expr))
      return r.1 ++ last : Except (Failure FormulationError) (List Expr)) = .error e := h
    cases hlast : sumDefinition Names.objective r.2 with
    | error t =>
      rw [hlast] at h
      cases h
      exact ⟨t, rfl⟩
    | ok last =>
      rw [hlast] at h
      cases h

/-- What is said of the objective of a model, if something is soft. -/
def objectiveExprs (m : Model) : Except (Failure FormulationError) (List Expr) :=
  if (ofModel m).hasObjective then (ofModel m).objective else .ok []

theorem objectiveExprs_error {m : Model} {e : Failure FormulationError}
    (h : objectiveExprs m = .error e) : ∃ t, e = .fault t := by
  unfold objectiveExprs at h
  split_ifs at h with hobj
  exact objective_error hobj h

theorem objective_of_objectiveExprs {m : Model} {os : List Expr} (h : objectiveExprs m = .ok os)
    (hsoft : m.softConstraints ≠ []) : (ofModel m).objective = .ok os := by
  rwa [objectiveExprs, if_pos ((hasObjective_ofModel m).2 hsoft)] at h

/-- A whole model is formulated, up to an overflow of its objective. -/
theorem addModel_eq {m : Model} (hm : m.Formulable) : addModel m .empty =
    match objectiveExprs m with
    | .ok exprs => .ok (entityExprs m ++ exprs) (ofModel m)
    | .error e => .error e (ofModel m) := by
  have hget : (get : Step FormulationError Formulation Formulation) (ofModel m) =
      .ok (ofModel m) (ofModel m) := rfl
  unfold addModel objectiveExprs entityExprs
  simp only [bind, EStateM.bind, addVariables_model hm, addConstraints_model hm, hget]
  by_cases hobj : (ofModel m).hasObjective
  · simp only [hobj, ↓reduceIte]
    cases (ofModel m).objective <;> rfl
  · simp only [hobj, Bool.false_eq_true, ↓reduceIte, List.append_nil]
    rfl

/-- What is said of variables and constraints implies feasibility and penalties that are high
enough. -/
theorem entityExprs_sound {m : Model} (hm : m.Formulable) {value : String → Int}
    (h : Expr.AllHold value (entityExprs m)) :
    m.Feasible value ∧
      ∀ c ∈ m.softConstraints, c.amount value ≤ value (Names.penalty c.name) := by
  obtain ⟨hvars, hcons⟩ := Expr.allHold_append.1 h
  obtain ⟨hin, hhard, hsoft⟩ := hm.sound (fun c hc => hc) hvars hcons
  refine ⟨hm.feasible_iff.2 ⟨hin, hhard⟩, fun c hc => ?_⟩
  obtain ⟨hmem, his⟩ := List.mem_filter.1 hc
  exact hsoft c hmem his

/-- A feasible assignment extends to the auxiliary variables. -/
theorem entityExprs_extended {m : Model} (hm : m.Formulable) {value : String → Int}
    (hfeasible : m.Feasible value) : Expr.AllHold (m.extended value) (entityExprs m) := by
  refine Expr.allHold_append.2 ⟨hm.allHold_extended_vars hfeasible.inDomains, ?_⟩
  rw [Expr.allHold_iff, List.forall_mem_flatMap]
  intro c hc
  exact Expr.allHold_iff.1 (hm.allHold_extended hfeasible hc)

/-- The extended assignment satisfies the objective as well. -/
theorem objectiveExprs_extended {m : Model} (hm : m.Formulable) {os : List Expr}
    (h : objectiveExprs m = .ok os) {value : String → Int} (hin : InDomains value m.vars) :
    Expr.AllHold (m.extended value) os := by
  unfold objectiveExprs at h
  split_ifs at h
  · exact hm.objective_extended hin h rfl
  · cases h
    trivial

/-- The weighted sum of the penalties of a model. -/
def penaltySum (m : Model) (value : String → Int) : Int :=
  (m.softConstraints.map fun c => (c.weight.price : Int) * value (Names.penalty c.name)).sum

/-- With penalties that are high enough, their sum is no less than the cost. -/
theorem cost_le_penaltySum {m : Model} {value : String → Int}
    (h : ∀ c ∈ m.softConstraints, c.amount value ≤ value (Names.penalty c.name)) :
    m.cost value ≤ penaltySum m value := by
  refine List.sum_le_sum fun c hc => ?_
  exact Int.mul_le_mul_of_nonneg_left (h c hc) (Int.natCast_nonneg _)

/-- The extended assignment has a sum of penalties that is the cost. -/
theorem penaltySum_extended {m : Model} (hm : m.Formulable) (value : String → Int) :
    penaltySum m (m.extended value) = m.cost value := by
  refine congrArg List.sum (List.map_congr_left fun c hc => ?_)
  rw [hm.extended_penalty (Model.mem_softConstraints.1 hc).1]

/-- **Formulating keeps the meaning.** A model that is supported is formulated unless machine
arithmetic gives out.  Values that satisfy what is said are feasible, their penalties are at or
above the violations, and their objective is the weighted sum of the penalties.  Every feasible
assignment extends to values that satisfy what is said, with each penalty equal to the
violation. -/
theorem addModel_meaning {m : Model} (hm : m.Built)
    (hnames : ∀ x ∈ m.vars, Names.isReserved x.name = false)
    (hsupported : checkSupported m = .ok ()) :
    match addModel m .empty with
    | .ok exprs _ =>
      (∀ value, Expr.AllHold value exprs → m.Feasible value ∧
        (∀ c ∈ m.softConstraints, c.violation (.of value) = .ok (c.amount value) ∧
          c.amount value ≤ value (Names.penalty c.name)) ∧
        (m.softConstraints ≠ [] → value Names.objective = penaltySum m value ∧
          m.cost value ≤ value Names.objective)) ∧
      ∀ value, m.Feasible value → ∃ value', (∀ x ∈ m.vars, value' x.name = value x.name) ∧
        Expr.AllHold value' exprs ∧
        (∀ c ∈ m.softConstraints,
          c.violation (.of value) = .ok (value' (Names.penalty c.name))) ∧
        (m.softConstraints ≠ [] → value' Names.objective = penaltySum m value')
    | .error e _ => ∃ t, e = .fault t := by
  have hform := Model.formulable_of_built hm hnames hsupported
  rw [addModel_eq hform]
  cases hobj : objectiveExprs m with
  | error e => exact objectiveExprs_error hobj
  | ok os =>
    have hviolation : ∀ value, m.Feasible value → ∀ c ∈ m.softConstraints,
        c.violation (.of value) = .ok (c.amount value) := fun value hfeasible c hc =>
      hform.violation_eq_ok hfeasible.inDomains (Model.mem_softConstraints.1 hc).1
    constructor
    · intro value hall
      obtain ⟨hentities, hos⟩ := Expr.allHold_append.1 hall
      obtain ⟨hfeasible, hpenalty⟩ := entityExprs_sound hform hentities
      refine ⟨hfeasible, fun c hc => ⟨hviolation value hfeasible c hc, hpenalty c hc⟩,
        fun hne => ?_⟩
      have hobjective := objective_of_objectiveExprs hobj hne
      have hvalue := (Model.Formulable.objective_sound hobjective rfl hos).1
      exact ⟨hvalue, hvalue ▸ cost_le_penaltySum hpenalty⟩
    · -- The extension gives every auxiliary name the value that it stands for.
      intro value hfeasible
      refine ⟨m.extended value, fun x hx => hform.extended_var hx, ?_, fun c hc => ?_,
        fun hne => ?_⟩
      · exact Expr.allHold_append.2 ⟨entityExprs_extended hform hfeasible,
          objectiveExprs_extended hform hobj hfeasible.inDomains⟩
      · rw [hviolation value hfeasible c hc,
          hform.extended_penalty (Model.mem_softConstraints.1 hc).1]
      · rw [penaltySum_extended hform]
        exact Model.extended_name .objective trivial

open Model.Sample in
theorem addModel_meaning_sample :
    ∃ exprs, (addModel Model.Sample.model).result? .empty = some exprs ∧
      (∀ value, Expr.AllHold value exprs →
        Model.Sample.model.cost value ≤ value Names.objective) ∧
      ∃ value', value' "x" = 2 ∧ value' "y" = 0 ∧ Expr.AllHold value' exprs ∧
        value' Names.objective = 3 := by
  have hsome : ((addModel model).result? .empty).isSome := by cbv
  obtain ⟨exprs, hexprs⟩ := Option.isSome_iff_exists.1 hsome
  have h := addModel_meaning built_model (by decide) rfl
  rw [Step.eq_ok_of_result? hexprs] at h
  obtain ⟨hsound, hcomplete⟩ := h
  have hne : model.softConstraints ≠ [] := by decide
  have hfeasible : model.Feasible fun n => if n = "x" then 2 else 0 := ⟨by decide, by decide⟩
  obtain ⟨value', hvars, hall, hpenalty, hobjective⟩ := hcomplete _ hfeasible
  refine ⟨exprs, hexprs, fun value hvalue => ((hsound value hvalue).2.2 hne).2, value',
    hvars x (by decide), hvars y (by decide), hall, ?_⟩
  have hlevel : value' (Names.penalty "level") = 1 :=
    (Except.ok.inj (hpenalty level (by decide))).symm
  have hhigh : value' (Names.penalty "high") = 0 :=
    (Except.ok.inj (hpenalty high (by decide))).symm
  rw [hobjective hne]
  show 3 * value' (Names.penalty "level") + (1 * value' (Names.penalty "high") + 0) = 3
  omega

end Formulation

end WeightedCsp

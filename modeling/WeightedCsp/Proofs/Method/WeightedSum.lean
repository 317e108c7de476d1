import WeightedCsp.Method.Strategy
import WeightedCsp.Proofs.Method.Descent
import WeightedCsp.Proofs.Method.Ending
import WeightedCsp.Proofs.Method.Formulating
import WeightedCsp.Proofs.Sat.Reference

/-!
# Minimizing the weighted sum is exact

Penalties may lie above the violations they stand for, so the objective of a solution is no less
than what its values cost.  On the other hand every feasible assignment extends to a solution with
the objective equal to its cost.  So where the objective is least, it is the cost, and the cost is
least (`least_cost`).  A search that is not interrupted comes to such a solution, or to a proof that
there is none (`Searched`).
-/

namespace WeightedCsp

namespace Formulation

variable {m : Model} {os : List Expr} {value : String → Int}

/-! ### The objective and the cost -/

theorem objective_bounds (hm : m.Formulable) (hos : objectiveExprs m = .ok os)
    (hall : Expr.AllHold value (entityExprs m ++ os)) (hsoft : m.softConstraints ≠ []) :
    0 ≤ value Names.objective ∧ m.cost value ≤ value Names.objective ∧
      value Names.objective ≤ Word.greatest := by
  obtain ⟨hentities, hobjective⟩ := Expr.allHold_append.1 hall
  have hobj := objective_of_objectiveExprs hos hsoft
  obtain ⟨hvalue, hnonneg⟩ := Model.Formulable.objective_sound hobj rfl hobjective
  refine ⟨hnonneg, ?_, objective_le_greatest hobj hobjective⟩
  rw [hvalue]
  exact cost_le_penaltySum (entityExprs_sound hm hentities).2

theorem feasible_of_allHold (hm : m.Formulable) (hall : Expr.AllHold value (entityExprs m ++ os)) :
    m.Feasible value := (entityExprs_sound hm (Expr.allHold_append.1 hall).1).1

theorem allHold_extended_model (hm : m.Formulable) (hos : objectiveExprs m = .ok os)
    (hfeasible : m.Feasible value) :
    Expr.AllHold (m.extended value) (entityExprs m ++ os) :=
  Expr.allHold_append.2 ⟨entityExprs_extended hm hfeasible,
    objectiveExprs_extended hm hos hfeasible.inDomains⟩

/-- Values with the least objective cost the least, and the objective is what they cost. -/
theorem least_cost (hm : m.Formulable) (hos : objectiveExprs m = .ok os)
    (hall : Expr.AllHold value (entityExprs m ++ os)) (hsoft : m.softConstraints ≠ [])
    (hleast : ∀ other, Expr.AllHold other (entityExprs m ++ os) →
      value Names.objective ≤ other Names.objective) :
    value Names.objective = m.cost value ∧ m.Cheapest value := by
  have hbelow : ∀ other, m.Feasible other → value Names.objective ≤ m.cost other := by
    intro other hother
    have hextended : m.extended other Names.objective = m.cost other :=
      Model.extended_name .objective trivial
    rw [← hextended]
    exact hleast _ (allHold_extended_model hm hos hother)
  have hcost := (objective_bounds hm hos hall hsoft).2.1
  have hfeasible := feasible_of_allHold hm hall
  refine ⟨Int.le_antisymm (hbelow value hfeasible) hcost, hfeasible, fun other hother => ?_⟩
  exact Int.le_trans hcost (hbelow other hother)

end Formulation

/-- The end of a search whose last descent is done. -/
def Descent.verdict : Descent → Phase
  | .optimal _ => .optimal
  | .interrupted _ => .timeout

namespace Optimizer

variable {σ : Type} {b : Backend σ} {clauses : σ → List Clause} {m : Model} {os : List Expr}
  {o : Optimizer σ}

/-! ### The search -/

/-- What a search for the least objective comes to, whatever it asks. -/
structure Settled (m : Model) (exprs : List Expr) (o : Optimizer σ) : Prop extends
    Ended m 1 o where
  /-- The best solution satisfies everything, and its objective is the least. -/
  optimal : o.phase = .optimal → ∃ s, o.best = some s ∧ Outcome.RightFor exprs [] (.sat s) ∧
    (m.softConstraints ≠ [] → ∀ value, Expr.AllHold value exprs →
      s.value Names.objective ≤ value Names.objective)
  /-- No values satisfy everything. -/
  infeasible : o.phase = .infeasible → o.best = none ∧ ¬∃ value, Expr.AllHold value exprs
  /-- Whatever the end, the best solution satisfies everything. -/
  right : ∀ s, o.best = some s → Outcome.RightFor exprs [] (.sat s)
  /-- Whatever the end, no solution that was found has a smaller objective. -/
  foremost : m.softConstraints ≠ [] → o.Foremost Names.objective
  /-- Without an interruption every question was put to the backend. -/
  solves : o.Uninterrupted → o.solves = o.questions.length
  /-- Without an objective, one question is enough. -/
  once : m.softConstraints = [] → o.questions.length ≤ 1

/-- What a descent on the objective comes to, whatever came in between. -/
structure Searched (m : Model) (exprs : List Expr) (o : Optimizer σ) : Prop extends
    Settled m exprs o where
  /-- The bounds that were tried fall. -/
  bounds : (o.questions.filterMap (·.bound)).Pairwise (· > ·)
  /-- With an objective, the first solution limits the number of questions. -/
  few : o.Uninterrupted → ∀ s rest best, o.questions = ⟨none, .sat s⟩ :: rest →
    o.best = some best → m.softConstraints ≠ [] →
    (o.questions.length : Int) ≤ s.value Names.objective - best.value Names.objective + 2

theorem presentable_of_rightFor (hm : m.Formulable) {s : Solution}
    (h : Outcome.RightFor (Formulation.entityExprs m ++ os) [] (.sat s)) : s.Presentable m := by
  refine h.presentable (fun x hx => ?_) fun value hall => Formulation.feasible_of_allHold hm hall
  rw [Formulation.entityExprs, Formulation.sayings, Expr.declaredBy_append, Expr.declaredBy_append]
  have hintroduced := Model.Formulable.introduced_variableExprs m x hx
  exact List.mem_append_left _ (List.mem_append_left _ hintroduced.1)

section FirstQuestion

variable {f : Formulation} {phase : Phase} {o' : Optimizer σ} {s : Solution}

theorem settled_of_unsolved (hm : m.Formulable) (hos : Formulation.objectiveExprs m = .ok os)
    (h : Prepared clauses m f (Formulation.entityExprs m ++ os) phase o)
    (hun : Unsolved (Formulation.entityExprs m ++ os) o o') :
    Settled m (Formulation.entityExprs m ++ os) o' := by
  have hended := ended_of_unsolved h hun fun _ => Formulation.allHold_extended_model hm hos
  obtain ⟨hquestions, hsolves, hnone, -⟩ := h.asked
  have hbest : o'.best = none := by rw [hun.kept.2, hnone]
  refine ⟨hended, fun hopt => absurd hbest (hended.found hopt), fun hinf => ⟨hbest, ?_⟩,
    fun s hs => ?_, fun _ q hq s hs => ?_, fun hanswered => ?_, fun _ => hended.early hbest⟩
  · rcases hun.reason with ⟨-, hrefused, -⟩ | ⟨hphase, -⟩
    · exact hrefused
    · cases hphase.symm.trans hinf
  · cases hbest.symm.trans hs
  · rcases h.questions_of_unsolved hun with hlast | hlast
    · rw [hlast, List.mem_singleton] at hq
      cases hq
      cases hs
    · rw [hlast, List.mem_singleton] at hq
      cases hq
      cases hs
  · rcases hun.reason with ⟨-, -, hlast, hcount⟩ | ⟨-, hlast⟩
    · rw [hlast, hcount, hsolves, hquestions]
      rfl
    · exact absurd rfl (hanswered ⟨none, .interrupted⟩ (by simp [hlast]))

theorem settled_of_found (hm : m.Formulable)
    (h : Prepared clauses m f (Formulation.entityExprs m ++ os) phase o)
    (hsoft : m.softConstraints = []) (hfound : Found (Formulation.entityExprs m ++ os) o o' s) :
    Settled m (Formulation.entityExprs m ++ os) o' := by
  obtain ⟨hquestions, hsolves, -, -⟩ := h.asked
  obtain ⟨hlast, hcount⟩ := hfound.asked
  rw [hquestions, List.nil_append] at hlast
  refine ⟨ended_of_found h hfound (presentable_of_rightFor hm hfound.right),
    fun _ => ⟨s, hfound.best, hfound.right, fun hne => absurd hsoft hne⟩, fun hinf => ?_,
    fun t ht => ?_, fun hne => absurd hsoft hne, fun _ => ?_, fun _ => by simp [hlast]⟩
  · cases hfound.phase.symm.trans hinf
  · cases hfound.best.symm.trans ht
    exact hfound.right
  · rw [hlast, hcount, hsolves]
    rfl

theorem Searched.of_unsolved (hm : m.Formulable) (hos : Formulation.objectiveExprs m = .ok os)
    (h : Prepared clauses m f (Formulation.entityExprs m ++ os) phase o)
    (hun : Unsolved (Formulation.entityExprs m ++ os) o o') :
    Searched m (Formulation.entityExprs m ++ os) o' := by
  refine ⟨settled_of_unsolved hm hos h hun, ?_, fun _ s rest best hfirst => ?_⟩
  · rcases h.questions_of_unsolved hun with hlast | hlast <;> simp [hlast]
  · rcases h.questions_of_unsolved hun with hlast | hlast
    · cases hlast.symm.trans hfirst
    · cases hlast.symm.trans hfirst

theorem Searched.of_found (hm : m.Formulable)
    (h : Prepared clauses m f (Formulation.entityExprs m ++ os) phase o)
    (hsoft : m.softConstraints = []) (hfound : Found (Formulation.entityExprs m ++ os) o o' s) :
    Searched m (Formulation.entityExprs m ++ os) o' := by
  refine ⟨settled_of_found hm h hsoft hfound, ?_, fun _ _ _ _ _ _ hne => absurd hsoft hne⟩
  obtain ⟨hlast, -⟩ := hfound.asked
  rw [h.asked.1] at hlast
  simp [hlast]

end FirstQuestion

/-- The search for the least objective has its first solution, and that is the best one. -/
structure Begun (clauses : σ → List Clause) (m : Model) (exprs : List Expr)
    (s : Solution) (o : Optimizer σ) : Prop where
  /-- The model. -/
  model : o.model = m
  /-- Something is soft. -/
  soft : m.softConstraints ≠ []
  /-- A descent may begin. -/
  descending : Descending clauses m.valuesOf (Expr.declaredBy exprs) exprs Names.objective
    (s.value Names.objective) o
  /-- One question was asked. -/
  asked : o.questions = [⟨none, .sat s⟩] ∧ o.solves = 1
  /-- The solution is the best one. -/
  best : o.best = some s

theorem Begun.foremost {exprs : List Expr} {s : Solution} (h : Begun clauses m exprs s o) :
    o.Foremost Names.objective := by
  intro q hq t ht
  rw [h.asked.1, List.mem_singleton] at hq
  cases hq
  cases ht
  exact ⟨s, h.best, Int.le_refl _⟩

/-- A search that has a solution is settled by its last phase. -/
theorem settled_of_best (hm : m.Formulable) {o : Optimizer σ} (hmodel : o.model = m)
    (hsoft : m.softConstraints ≠ []) {t : Solution} (hbest : o.best = some t)
    (hright : Outcome.RightFor (Formulation.entityExprs m ++ os) [] (.sat t))
    (hforemost : o.Foremost Names.objective)
    (hend : (o.phase = .optimal ∧ o.Uninterrupted ∧ o.solves = o.questions.length ∧
        ∀ value, Expr.AllHold value (Formulation.entityExprs m ++ os) →
          t.value Names.objective ≤ value Names.objective) ∨
      (o.phase = .timeout ∧ ¬o.Uninterrupted)) :
    Settled m (Formulation.entityExprs m ++ os) o := by
  have hearly : o.best = none → o.questions.length ≤ 1 := by
    intro hnone
    cases hbest.symm.trans hnone
  have hpresentable : ∀ s, o.best = some s → s.Presentable m := by
    intro s hs
    cases hbest.symm.trans hs
    exact presentable_of_rightFor hm hright
  have hfound : o.phase = .optimal → o.best ≠ none := by
    intro _ hnone
    cases hbest.symm.trans hnone
  have hbests : ∀ s, o.best = some s →
      Outcome.RightFor (Formulation.entityExprs m ++ os) [] (.sat s) := by
    intro s hs
    cases hbest.symm.trans hs
    exact hright
  rcases hend with ⟨hphase, hun, hcount, hleast⟩ | ⟨hphase, hint⟩
  · refine ⟨⟨hmodel, fun _ => .inl hphase, fun hint => absurd hun hint, hfound,
      fun hinf => ?_, hearly,
      hpresentable⟩, fun _ => ⟨t, hbest, hright, fun _ => hleast⟩, fun hinf => ?_, hbests,
      fun _ => hforemost, fun _ => hcount, fun hnone => absurd hnone hsoft⟩
    · cases hphase.symm.trans hinf
    · cases hphase.symm.trans hinf
  · refine ⟨⟨hmodel, fun hun => absurd hun hint, fun _ => hphase, hfound, fun hinf => ?_, hearly,
      hpresentable⟩, fun hopt => ?_, fun hinf => ?_, hbests, fun _ => hforemost,
      fun hun => absurd hun hint, fun hnone => absurd hnone hsoft⟩
    · cases hphase.symm.trans hinf
    · cases hphase.symm.trans hopt
    · cases hphase.symm.trans hinf

/-- A descent from the first solution. -/
theorem Searched.of_descended (hm : m.Formulable) {o₁ o' : Optimizer σ} {s : Solution} {d : Descent}
    (h : Begun clauses m (Formulation.entityExprs m ++ os) s o₁)
    (hd : Descended b clauses m.valuesOf (Expr.declaredBy (Formulation.entityExprs m ++ os))
      (Formulation.entityExprs m ++ os) Names.objective (s.value Names.objective) o₁ d o')
    (took : Option Nat) :
    Searched m (Formulation.entityExprs m ++ os) { o' with phase := d.verdict, took := took } := by
  obtain ⟨hquestions, hsolves⟩ := h.asked
  obtain ⟨t, hbest, hright, hvalue⟩ := hd.solution
  obtain ⟨qs, hqs, hfalling⟩ := hd.questions
  have hforemost := hd.foremost h.foremost
  have hall : o'.questions = ⟨none, .sat s⟩ :: qs := by
    rw [hqs, hquestions]
    rfl
  have hmodel : o'.model = m := by
    rw [hd.frame]
    exact h.model
  have hbounds : (o'.questions.filterMap (·.bound)).Pairwise (· > ·) := by
    rw [hall]
    exact hfalling.bounds
  cases d with
  | interrupted v =>
    obtain ⟨q, hq, hint⟩ := hfalling.interrupted v rfl
    have hnot : ¬o'.Uninterrupted := fun hun => hun q (by simp [hall, hq]) hint
    exact ⟨settled_of_best hm hmodel h.soft hbest hright hforemost (.inr ⟨rfl, hnot⟩), hbounds,
      fun hun => absurd hun hnot⟩
  | optimal v =>
    obtain ⟨hleast, hanswered, hlast, hfew⟩ := hfalling.optimal v rfl
    have hv : t.value Names.objective = v := hvalue
    -- Each question of a descent that is not cut is one call of the solver.
    have hlength : o'.solves = o'.questions.length := by
      rw [hlast, hall, List.length_cons]
      omega
    have hun : o'.Uninterrupted := by
      unfold Uninterrupted
      rw [hall]
      exact List.forall_mem_cons.2 ⟨by simp, hanswered⟩
    rw [← hv] at hleast
    refine ⟨settled_of_best hm hmodel h.soft hbest hright hforemost
      (.inl ⟨rfl, hun, hlength, hleast⟩), hbounds, fun _ first rest best hfirst hbest' _ => ?_⟩
    have hheads : (⟨none, .sat s⟩ :: qs : List Question) = ⟨none, .sat first⟩ :: rest :=
      hall.symm.trans hfirst
    cases hheads
    cases hbest.symm.trans hbest'
    show (o'.questions.length : Int) ≤ _
    rw [hall, List.length_cons, hv]
    omega

variable {fair : Optimizer σ → Prop}

/-- The objective is declared where something is soft. -/
theorem objective_mem_declaredBy (hm : m.Formulable) (hos : Formulation.objectiveExprs m = .ok os)
    (hsoft : m.softConstraints ≠ []) :
    Names.objective ∈ Expr.declaredBy (Formulation.entityExprs m ++ os) := by
  rw [Expr.declaredBy_append]
  exact List.mem_append_right _ ((hm.accepts_model hos).2 hsoft)

/-- The first solution becomes the best one. -/
theorem begun_of_asked (hm : m.Formulable) (hos : Formulation.objectiveExprs m = .ok os)
    (hsoft : m.softConstraints ≠ []) {s : Solution} {o' : Optimizer σ} {phase : Phase}
    (h : Prepared clauses m (.ofModel m) (Formulation.entityExprs m ++ os) phase o)
    (hasked : Asked b clauses m.valuesOf (Expr.declaredBy (Formulation.entityExprs m ++ os))
      (Formulation.entityExprs m ++ os) [] none o (.sat s) o') :
    Begun clauses m (Formulation.entityExprs m ++ os) s { o' with best := some s } := by
  obtain ⟨left, -, hused⟩ := hasked.stands
  obtain ⟨-, hcount⟩ := hused (by simp)
  obtain ⟨hquestions, hsolves, -, -⟩ := h.asked
  have hframe := hasked.frame
  have hdescending := hasked.descending (objective_mem_declaredBy hm hos hsoft)
    fun value hvalue => (Formulation.objective_bounds hm hos hvalue hsoft).1
  refine ⟨?_, hsoft, hdescending, ⟨?_, ?_⟩, rfl⟩
  · rw [hframe]
    exact h.model
  · rw [hframe, hquestions]
    rfl
  · rw [hcount, hsolves]

/-- **Searching for the least objective.** All depends on what is done with the first solution. -/
theorem runs_search (hb : b.Sound clauses) (hm : m.Formulable)
    (hos : o.Room → Formulation.objectiveExprs m = .ok os)
    (h : o.Room → Prepared clauses m (.ofModel m) (Formulation.entityExprs m ++ os) .encoded o)
    {k : Int → Action σ Unit} {post : Unit → Optimizer σ → Prop}
    (hnone : ∀ o₁ o₂, Formulation.objectiveExprs m = .ok os →
      Prepared clauses m (.ofModel m) (Formulation.entityExprs m ++ os) .searching o₁ →
      Unsolved (Formulation.entityExprs m ++ os) o₁ o₂ → post () o₂)
    (hfound : ∀ s o₁ o₂,
      Prepared clauses m (.ofModel m) (Formulation.entityExprs m ++ os) .searching o₁ →
      m.softConstraints = [] → Found (Formulation.entityExprs m ++ os) o₁ o₂ s → post () o₂)
    (hk : ∀ s o₁, (o₁.Room → Formulation.objectiveExprs m = .ok os ∧
      Begun clauses m (Formulation.entityExprs m ++ os) s o₁) →
      Runs fair (k (s.value Names.objective)) o₁ post) :
    Runs fair (do
      beginSearch b
      if (← get).formulation.hasObjective then
        match ← firstSolution b with
        | none => return ()
        | some s => do
          let first ← valueOf s Names.objective
          record s
          k first
      else anySolution b) o post := by
  refine (runs_beginSearch h).bind fun _ o₁ hlater₁ h₁ => runs_get_bind ?_
  have hos₁ : o₁.Room → Formulation.objectiveExprs m = .ok os :=
    fun hroom => hos (hlater₁.room hroom)
  have hclear := fun hroom : o₁.Room => clear_of_stands (b := b) (h₁ hroom).stands
  by_cases hobj : o₁.formulation.hasObjective
  · simp only [hobj, ↓reduceIte]
    have hsoft : o₁.Room → m.softConstraints ≠ [] := by
      intro hroom
      rw [(h₁ hroom).formulation] at hobj
      exact (Formulation.hasObjective_ofModel m).1 hobj
    refine (runs_firstSolution hb hclear).bind fun r o₂ hlater₂ h₂ => ?_
    cases r with
    | none =>
      refine runs_pure fun hroom => ?_
      have hroom₁ := hlater₂.room hroom
      exact hnone o₁ o₂ (hos₁ hroom₁) (h₁ hroom₁) ((h₂ hroom).2 rfl)
    | some s =>
      have hasked := fun hroom : o₂.Room => (h₂ hroom).1 s rfl
      have hdeclared := fun hroom : o₂.Room =>
        objective_mem_declaredBy hm (hos₁ (hlater₂.room hroom)) (hsoft (hlater₂.room hroom))
      refine runs_valueOf_bind (fun hroom => (hasked hroom).right.get? (hdeclared hroom)) ?_
      refine runs_record_bind (hk s _ fun hroom => ?_)
      have hroom₂ : o₂.Room := hroom
      have hroom₁ := hlater₂.room hroom₂
      exact ⟨hos₁ hroom₁,
        begun_of_asked hm (hos₁ hroom₁) (hsoft hroom₁) (h₁ hroom₁) (hasked hroom₂)⟩
  · simp only [hobj, Bool.false_eq_true, ↓reduceIte]
    refine (runs_anySolution hb hclear).mono fun _ o₂ hlater hroom h₂ => ?_
    have hprepared := h₁ (hlater.room hroom)
    rw [hprepared.formulation] at hobj
    have hsoft : m.softConstraints = [] := by
      by_contra hne
      exact hobj ((Formulation.hasObjective_ofModel m).2 hne)
    rcases h₂ with ⟨s, hfound'⟩ | hun
    · exact hfound s o₁ o₂ hprepared hsoft hfound'
    · exact hnone o₁ o₂ (hos₁ (hlater.room hroom)) hprepared hun

/-- **Linear descent.** -/
theorem runs_searchLinear (hb : b.Sound clauses) (hm : m.Formulable)
    (hos : o.Room → Formulation.objectiveExprs m = .ok os)
    (h : o.Room → Prepared clauses m (.ofModel m) (Formulation.entityExprs m ++ os) .encoded o) :
    Runs fair (searchLinear b) o fun _ o' => Searched m (Formulation.entityExprs m ++ os) o' := by
  refine runs_search hb hm hos h (fun _ _ => .of_unsolved hm) (fun _ _ _ => .of_found hm)
    (k := fun first => do
      match ← descend b Names.objective first with
      | .optimal _ => enter b .optimal
      | .interrupted _ => enter b .timeout) fun s o₁ h₁ => ?_
  refine (runs_descend hb fun hroom => (h₁ hroom).2.descending).bind fun d o₂ hlater h₂ => ?_
  have hsearched := fun (hroom : o₂.Room) (took : Option Nat) =>
    Searched.of_descended hm (h₁ (hlater.room hroom)).2 (h₂ hroom) took
  cases d with
  | optimal v => exact runs_enter fun took hroom => hsearched hroom took
  | interrupted v => exact runs_enter fun took hroom => hsearched hroom took

/-! ### The report -/

/-- What a report on the weighted sum says of the best solution. -/
theorem Settled.report (hm : m.Formulable) (hos : Formulation.objectiveExprs m = .ok os)
    (h : Settled m (Formulation.entityExprs m ++ os) o) (hopt : o.phase = .optimal) {name : String}
    {r : Report} (hr : o.report b name = .ok r) :
    ∃ s, o.best = some s ∧ m.Cheapest s.value ∧
      (m.softConstraints ≠ [] → s.value Names.objective = m.cost s.value) ∧
      r.assignment = m.vars.map (fun x => (x.name, s.value x.name)) ∧ r.hardViolations = 0 ∧
      r.objective = some (m.cost s.value) := by
  obtain ⟨s, hbest, hright, hleast⟩ := h.optimal hopt
  have hfeasible := (presentable_of_rightFor hm hright).feasible
  obtain ⟨hassignment, hhard, -⟩ := h.report_best hm.toWellFormed hr hbest
  have hcost := h.report_objective hm.toWellFormed hr hbest
  by_cases hsoft : m.softConstraints = []
  · have hzero : ∀ value, m.cost value = 0 := by
      intro value
      rw [Model.cost, hsoft]
      rfl
    refine ⟨s, hbest, ⟨hfeasible, fun other _ => ?_⟩, fun hne => absurd hsoft hne, hassignment,
      hhard, hcost ?_⟩
    · rw [hzero, hzero]
    · rw [hzero]
      decide
  · obtain ⟨hvalue, hcheapest⟩ := Formulation.least_cost hm hos hright.2.1 hsoft (hleast hsoft)
    have hfits := (Formulation.objective_bounds hm hos hright.2.1 hsoft).2.2
    exact ⟨s, hbest, hcheapest, fun _ => hvalue, hassignment, hhard, hcost (hvalue ▸ hfits)⟩

/-- All steps of a search for the least objective. -/
theorem runs_weightedSum (hb : b.Sound clauses) (hm : m.Formulable)
    (h : Prepared clauses m .empty [] .start o) {search : Action σ Unit}
    {post : List Expr → Optimizer σ → Prop}
    (hsearch : ∀ os o₁, (o₁.Room → Formulation.objectiveExprs m = .ok os) →
      (o₁.Room → Prepared clauses m (.ofModel m) (Formulation.entityExprs m ++ os) .encoded o₁) →
      Runs fair search o₁ fun _ o' => post (Formulation.entityExprs m ++ os) o') (name : String) :
    Runs fair (do
      formulateAll b
      encode b
      search
      ((← get).report b name : Checked Report)) o fun r o' => ∃ os,
        Formulation.objectiveExprs m = .ok os ∧ post (Formulation.entityExprs m ++ os) o' ∧
        o'.report b name = .ok r := by
  -- Whatever is said of the objective does not depend on the run.
  obtain ⟨os, hos⟩ : ∃ os, ∀ os', Formulation.objectiveExprs m = .ok os' → os' = os := by
    cases hexprs : Formulation.objectiveExprs m with
    | ok os => exact ⟨os, fun os' hos' => (Except.ok.inj hos').symm⟩
    | error e => exact ⟨[], fun os' hos' => by cases hos'⟩
  refine (runs_formulateAll hm h).bind fun _ o₁ _ h₁ => ?_
  have h₁' : o₁.Room → Formulation.objectiveExprs m = .ok os ∧
      Prepared clauses m (.ofModel m) (Formulation.entityExprs m ++ os) .formulated o₁ := by
    intro hroom
    obtain ⟨os', hexprs, hprepared⟩ := h₁ hroom
    obtain rfl := hos os' hexprs
    exact ⟨hexprs, hprepared⟩
  refine (runs_encode hb fun hroom => (h₁' hroom).2).bind fun _ o₂ hlater₂ h₂ => ?_
  have hos₂ : o₂.Room → Formulation.objectiveExprs m = .ok os :=
    fun hroom => (h₁' (hlater₂.room hroom)).1
  refine (hsearch os o₂ hos₂ h₂).bind fun _ o₃ hlater₃ h₃ => runs_get_bind ?_
  exact runs_checked (tame_report b _ _) fun r hr hroom =>
    ⟨os, hos₂ (hlater₃.room hroom), h₃ hroom, hr⟩

end Optimizer

namespace Strategy

open Optimizer

variable {σ : Type} {b : Backend σ} {clauses : σ → List Clause} {m : Model} {o : Optimizer σ}

theorem runs_linear {fair : Optimizer σ → Prop} (hb : b.Sound clauses) (hm : m.Formulable)
    (h : Prepared clauses m .empty [] .start o) (run : LocalSearch.Runner) :
    Runs fair (complete b run .linear) o fun r o' => ∃ os, Formulation.objectiveExprs m = .ok os ∧
      Searched m (Formulation.entityExprs m ++ os) o' ∧ o'.report b linear.name = .ok r :=
  runs_weightedSum hb hm h (fun _ _ hos h₁ => runs_searchLinear hb hm hos h₁) linear.name

/-- **Linear descent is exact.** An optimal report is on a cheapest assignment, and without an
interruption every report is optimal or says that nothing is feasible.  The bounds that are tried
fall, and there are at most two questions more than the objective falls by. -/
theorem linear_exact (hb : b.Sound clauses) {s₀ : σ} (h₀ : clauses s₀ = []) (hm : m.Built)
    (hnames : ∀ x ∈ m.vars, Names.isReserved x.name = false) {options : MethodOptions}
    (hnew : Optimizer.new b s₀ m options = .ok o) (run : LocalSearch.Runner) :
    Ends (complete b run .linear o) fun r o' =>
      (r.status = .optimal → ∃ value,
        r.assignment = m.vars.map (fun x => (x.name, value x.name)) ∧ m.Cheapest value ∧
        r.hardViolations = 0 ∧ r.objective = some (m.cost value)) ∧
      (r.status = .infeasible → ¬∃ value, m.Feasible value) ∧
      (o'.questions.filterMap (·.bound)).Pairwise (· > ·) ∧
      (o'.Uninterrupted → (r.status = .optimal ∨ r.status = .infeasible) ∧
        r.solves = o'.questions.length ∧ (m.softConstraints = [] → r.solves ≤ 1) ∧
        ∀ s rest value, o'.questions = ⟨none, .sat s⟩ :: rest → m.softConstraints ≠ [] →
          m.Cheapest value → (r.solves : Int) ≤ s.value Names.objective - m.cost value + 2) := by
  obtain ⟨hprepared, hsupported⟩ := prepared_new hb h₀ hnew
  have hform := Model.formulable_of_built hm hnames hsupported
  refine (runs_linear hb hform hprepared run).ends fun r o' h => ?_
  obtain ⟨os, hos, hsearched, hreport⟩ := h
  obtain ⟨hstatus, hsolves⟩ := Report.new_status hreport
  rw [hstatus, hsolves]
  have hrefused : o'.phase = .infeasible → ¬∃ value, m.Feasible value := by
    rintro hinf ⟨value, hvalue⟩
    exact (hsearched.infeasible hinf).2 ⟨_, Formulation.allHold_extended_model hform hos hvalue⟩
  refine ⟨fun hopt => ?_, hrefused, hsearched.bounds, fun hun => ⟨hsearched.decided hun,
    hsearched.solves hun, fun hsoft => ?_, fun s rest value hfirst hsoft hcheapest => ?_⟩⟩
  · obtain ⟨s, -, hcheapest, -, hassignment, hhard, hobjective⟩ :=
      hsearched.report hform hos hopt hreport
    exact ⟨s.value, hassignment, hcheapest, hhard, hobjective⟩
  · rw [hsearched.solves hun]
    exact hsearched.once hsoft
  · rcases hsearched.decided hun with hopt | hinf
    · obtain ⟨t, hbest, hown, hvalue, -⟩ := hsearched.report hform hos hopt hreport
      -- Both the reported solution and the given one are cheapest, so their costs agree.
      have hfew := hsearched.few hun s rest t hfirst hbest hsoft
      have hle := hown.2 value hcheapest.1
      have hge := hcheapest.2 t.value hown.1
      rw [hvalue hsoft] at hfew
      rw [hsearched.solves hun]
      omega
    · exact absurd ⟨value, hcheapest.1⟩ (hrefused hinf)

theorem linear_exact_forced : ∃ r o',
    complete .reference (fun _ => .killed) .linear forcedStart = .ok r o' ∧ o'.Room ∧
      o'.Uninterrupted ∧ r.status = .optimal ∧ r.solves = 2 ∧ r.objective = some 1 ∧
      ∃ value, Model.Sample.forced.Cheapest value ∧ Model.Sample.forced.cost value = 1 := by
  have hrun : digest (complete .reference (fun _ => .killed) .linear forcedStart) =
      some ⟨.optimal, some 1, [(1, 1)], 2, 15, true⟩ := by cbv
  obtain ⟨r, o', heq, hdigest⟩ := digest_eq_some hrun
  have hexact := linear_exact Backend.reference_sound rfl Model.Sample.built_forced (by decide)
    (show Optimizer.new .reference [] Model.Sample.forced {} = .ok forcedStart from rfl)
    fun _ => .killed
  rw [heq] at hexact
  have hroom : o'.Room := by
    have hnext : o'.session.next = 15 := congrArg Digest.next hdigest
    rw [Room, hnext]
    decide
  have hstatus : r.status = .optimal := congrArg Digest.status hdigest
  have hobjective : r.objective = some 1 := congrArg Digest.objective hdigest
  obtain ⟨value, -, hcheapest, -, hcost⟩ := (hexact hroom).1 hstatus
  refine ⟨r, o', heq, hroom, uninterrupted_of_answered (congrArg Digest.answered hdigest), hstatus,
    congrArg Digest.solves hdigest, hobjective, value, hcheapest, ?_⟩
  rw [hobjective] at hcost
  exact (Option.some.inj hcost).symm

end Strategy

end WeightedCsp

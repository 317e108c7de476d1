import WeightedCsp.Proofs.Method.Bisection

/-!
# What an interrupted search reports

Whichever questions are interrupted, no solution that was found has a smaller objective than the one
that is reported.  The objective of a solution is no less than what its values cost, but it may be
more: penalties have slack.  So the report costs no more than the objective of any solution that was
found, and no more than a solution without slack costs (`timeout_incumbent`).  It may well cost more
than a solution with slack does (`timeout_dearer`): the objective of such a solution is high, and a
later one takes its place that has a smaller objective and costs more.
-/

namespace WeightedCsp

namespace Optimizer

variable {σ : Type} {b : Backend σ} {m : Model} {os : List Expr} {o : Optimizer σ}

/-- The report on a search that was interrupted after a solution was found. -/
theorem Settled.report_timeout (hm : m.Formulable) (hos : Formulation.objectiveExprs m = .ok os)
    (h : Settled m (Formulation.entityExprs m ++ os) o) (htime : o.phase = .timeout)
    (hfound : ∃ q ∈ o.questions, ∃ s, q.outcome = .sat s) {name : String} {r : Report}
    (hr : o.report b name = .ok r) :
    ∃ t : Solution, m.Feasible t.value ∧
      r.assignment = m.vars.map (fun x => (x.name, t.value x.name)) ∧
      r.hardViolations = 0 ∧ r.objective = some (m.cost t.value) ∧
      m.cost t.value ≤ t.value Names.objective ∧
      ∀ q ∈ o.questions, ∀ s, q.outcome = .sat s →
        t.value Names.objective ≤ s.value Names.objective := by
  obtain ⟨q, hq, s, hs⟩ := hfound
  have hsoft : m.softConstraints ≠ [] := by
    intro hnone
    -- The only question would have been both answered and interrupted.
    obtain ⟨p, hp, hint⟩ := h.timeout_iff.1 htime
    have hone := Nat.le_antisymm (h.once hnone) (List.length_pos_of_mem hq)
    obtain ⟨only, honly⟩ := List.length_eq_one_iff.1 hone
    rw [honly, List.mem_singleton] at hp hq
    rw [hp, ← hq, hs] at hint
    cases hint
  obtain ⟨t, hbest, -⟩ := h.foremost hsoft q hq s hs
  obtain ⟨-, hcost, hfits⟩ := Formulation.objective_bounds hm hos (h.right t hbest).2.1 hsoft
  obtain ⟨hassignment, hhard, -⟩ := h.report_best hm.toWellFormed hr hbest
  refine ⟨t, (h.presentable t hbest).feasible, hassignment, hhard,
    h.report_objective hm.toWellFormed hr hbest (Int.le_trans hcost hfits), hcost,
    fun p hp u hu => ?_⟩
  obtain ⟨t', hbest', hle⟩ := h.foremost hsoft p hp u hu
  cases hbest.symm.trans hbest'
  exact hle

/-- What the solutions that were found cost. -/
def foundCosts (m : Model) (o : Optimizer σ) : List Int :=
  o.questions.filterMap fun q => match q.outcome with
    | .sat s => some (m.cost s.value)
    | _ => none

theorem exists_of_mem_foundCosts {cost : Int} (h : cost ∈ o.foundCosts m) :
    ∃ q ∈ o.questions, ∃ s, q.outcome = .sat s ∧ m.cost s.value = cost := by
  obtain ⟨q, hq, hcost⟩ := List.mem_filterMap.1 h
  split at hcost
  · next s hs => exact ⟨q, hq, s, hs, Option.some.inj hcost⟩
  · cases hcost

end Optimizer

namespace Strategy

open Optimizer

variable {σ : Type} {b : Backend σ} {clauses : σ → List Clause} {m : Model} {o : Optimizer σ}

theorem runs_weighted {fair : Optimizer σ → Prop} (hb : b.Sound clauses) (hm : m.Formulable)
    (h : Prepared clauses m .empty [] .start o) (run : LocalSearch.Runner) {strategy : Strategy}
    (hstrategy : strategy = .linear ∨ strategy = .binary) :
    Runs fair (complete b run strategy) o fun r o' => ∃ os,
      Formulation.objectiveExprs m = .ok os ∧ Settled m (Formulation.entityExprs m ++ os) o' ∧
      o'.report b strategy.name = .ok r := by
  rcases hstrategy with rfl | rfl
  · refine (runs_linear hb hm h run).mono fun r o' _ _ h' => ?_
    obtain ⟨os, hos, hsearched, hreport⟩ := h'
    exact ⟨os, hos, hsearched.toSettled, hreport⟩
  · refine (runs_binary hb hm h run).mono fun r o' _ _ h' => ?_
    obtain ⟨os, hos, hhalved, hreport⟩ := h'
    exact ⟨os, hos, hhalved.toSettled, hreport⟩

/-- **The incumbent.** After an interruption a search for the least objective reports a feasible
assignment with what it costs, and this is no more than the objective of any solution that was
found.  So no solution without slack costs less. -/
theorem timeout_incumbent (hb : b.Sound clauses) {s₀ : σ} (h₀ : clauses s₀ = []) (hm : m.Built)
    (hnames : ∀ x ∈ m.vars, Names.isReserved x.name = false) {options : MethodOptions}
    (hnew : Optimizer.new b s₀ m options = .ok o) (run : LocalSearch.Runner) {strategy : Strategy}
    (hstrategy : strategy = .linear ∨ strategy = .binary) :
    Ends (complete b run strategy o) fun r o' =>
      r.status = .timeout → (∃ q ∈ o'.questions, ∃ s, q.outcome = .sat s) → ∃ value,
        m.Feasible value ∧ r.assignment = m.vars.map (fun x => (x.name, value x.name)) ∧
        r.hardViolations = 0 ∧ r.objective = some (m.cost value) ∧
        ∀ q ∈ o'.questions, ∀ s, q.outcome = .sat s →
          m.cost value ≤ s.value Names.objective ∧
          (s.value Names.objective = m.cost s.value → m.cost value ≤ m.cost s.value) := by
  obtain ⟨hprepared, hsupported⟩ := prepared_new hb h₀ hnew
  have hform := Model.formulable_of_built hm hnames hsupported
  refine (runs_weighted hb hform hprepared run hstrategy).ends fun r o' h htime hfound => ?_
  obtain ⟨os, hos, hsettled, hreport⟩ := h
  rw [(Report.new_status hreport).1] at htime
  obtain ⟨t, hfeasible, hassignment, hhard, hobjective, hcost, hleast⟩ :=
    hsettled.report_timeout hform hos htime hfound hreport
  refine ⟨t.value, hfeasible, hassignment, hhard, hobjective, fun q hq s hs => ?_⟩
  have hle := Int.le_trans hcost (hleast q hq s hs)
  exact ⟨hle, fun hexact => Int.le_trans hle (Int.le_of_eq hexact)⟩

/-- Two solutions for a model with two prices, as the variables that are true: first the cheap value
with both penalties, and then the dear one with its own penalty only. -/
def slackScript : List (List Nat) :=
  [[0, 1, 3, 7, 9, 12, 14, 19, 21, 24, 25, 28, 29, 30, 32, 34, 35, 37, 38, 41, 42, 43],
    [0, 2, 4, 6, 7, 9, 12, 14, 18, 19, 20, 24, 28, 29, 30, 34, 35, 36, 37, 38, 39, 41, 42, 43]]

/-- The optimizer for this model, on a backend that answers from the script. -/
def slackStart : Optimizer (List (List Nat) × List Clause) :=
  startOn (slackScript, [[Session.topLit]]) Model.Sample.torn

/-- The digest of this run, with what the solutions cost. -/
def slackDigest : Option (Digest × List Int) :=
  match complete .replay (fun _ => .killed) .linear slackStart with
  | .ok r o => some (.of r o, o.foundCosts Model.Sample.torn)
  | .error _ _ => none

/-- Both solutions are found, the dear one is reported, and the third question is interrupted. -/
theorem exists_slack_run : ∃ r o',
    complete .replay (fun _ => .killed) .linear slackStart = .ok r o' ∧ o'.Room ∧
      r.status = .timeout ∧ r.objective = some 2 ∧
      ∃ q ∈ o'.questions, ∃ s, q.outcome = .sat s ∧ Model.Sample.torn.cost s.value = 1 := by
  have hrun : slackDigest =
      some (⟨.timeout, some 2, [(2, 1), (1, 0)], 3, 45, false⟩, [1, 2]) := by cbv
  unfold slackDigest at hrun
  split at hrun
  · next r o' heq =>
    obtain ⟨hdigest, hcosts⟩ := Prod.mk.inj (Option.some.inj hrun)
    have hnext : o'.session.next = 45 := congrArg Digest.next hdigest
    have hroom : o'.Room := by
      rw [Room, hnext]
      decide
    exact ⟨r, o', heq, hroom, congrArg Digest.status hdigest, congrArg Digest.objective hdigest,
      exists_of_mem_foundCosts (by simp [hcosts])⟩
  · cases hrun

/-- The report of this run costs 2, no more than the objective of any solution that was found. -/
theorem timeout_incumbent_slack : ∃ r o' value,
    complete .replay (fun _ => .killed) .linear slackStart = .ok r o' ∧ o'.Room ∧
      r.status = .timeout ∧ Model.Sample.torn.Feasible value ∧
      r.assignment = [("y", value "y")] ∧ Model.Sample.torn.cost value = 2 ∧
      ∀ q ∈ o'.questions, ∀ s, q.outcome = .sat s → 2 ≤ s.value Names.objective := by
  obtain ⟨r, o', heq, hroom, hstatus, hobjective, q, hq, s, hs, -⟩ := exists_slack_run
  have hends := timeout_incumbent Backend.replay_sound rfl Model.Sample.built_torn (by decide)
    (show Optimizer.new .replay (slackScript, []) Model.Sample.torn {} = .ok slackStart from rfl)
    (fun _ => .killed) (.inl rfl)
  rw [heq] at hends
  obtain ⟨value, hfeasible, hassignment, -, hcost, hleast⟩ := hends hroom hstatus ⟨q, hq, s, hs⟩
  have htwo : Model.Sample.torn.cost value = 2 :=
    Option.some.inj (hcost.symm.trans hobjective)
  refine ⟨r, o', value, heq, hroom, hstatus, hfeasible, hassignment, htwo, fun p hp u hu => ?_⟩
  rw [← htwo]
  exact (hleast p hp u hu).1

/-- **A dearer report.** A sound backend may answer so that after an interruption the report costs
more than a solution that was found. -/
theorem timeout_dearer : Backend.replay.Sound (·.2) ∧ Model.Sample.torn.Built ∧
    (∀ x ∈ Model.Sample.torn.vars, Names.isReserved x.name = false) ∧
    Optimizer.new .replay (slackScript, []) Model.Sample.torn {} = .ok slackStart ∧
    ∃ r o', complete .replay (fun _ => .killed) .linear slackStart = .ok r o' ∧ o'.Room ∧
      r.status = .timeout ∧ ∃ q ∈ o'.questions, ∃ s cost, q.outcome = .sat s ∧
        r.objective = some cost ∧ Model.Sample.torn.cost s.value < cost := by
  obtain ⟨r, o', heq, hroom, hstatus, hobjective, q, hq, s, hs, hcost⟩ := exists_slack_run
  refine ⟨Backend.replay_sound, Model.Sample.built_torn, by decide, rfl, r, o', heq, hroom, hstatus,
    q, hq, s, 2, hs, hobjective, ?_⟩
  rw [hcost]
  decide

end Strategy

end WeightedCsp

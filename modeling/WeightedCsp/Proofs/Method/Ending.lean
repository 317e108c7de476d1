import WeightedCsp.Proofs.Method.Formulating
import WeightedCsp.Proofs.Method.Report

/-!
# The end of a search

A search ends in one of three phases, whatever answers it gets and whichever questions are
interrupted.  `Ended` is what a search has to see to: an interruption leads to a timeout and nothing
else does, a model is refused for a reason, and the best solution can be shown.  The report then
says no more than it may (`Ended.verdict`):

* it says that nothing is feasible exactly if that is so and the first questions were answered;
* it says that time ran out exactly if a question was interrupted;
* the assignment that it shows is feasible and covers all variables, whatever the phase.
-/

namespace WeightedCsp

/-- The solution gives a value to every variable of the model, and these values are feasible. -/
structure Solution.Presentable (m : Model) (s : Solution) : Prop where
  /-- Every variable has a value. -/
  covers : ∀ x ∈ m.vars, s.get? x.name = some (s.value x.name)
  /-- The values are feasible. -/
  feasible : m.Feasible s.value

/-- A solution of expressions that declare all variables and admit feasible values only. -/
theorem Outcome.RightFor.presentable {m : Model} {exprs : List Expr} {s : Solution}
    (h : Outcome.RightFor exprs [] (.sat s))
    (hvars : ∀ x ∈ m.vars, x.name ∈ Expr.declaredBy exprs)
    (hfeasible : ∀ value, Expr.AllHold value exprs → m.Feasible value) : s.Presentable m :=
  ⟨fun x hx => h.get? (hvars x hx), hfeasible s.value h.2.1⟩

namespace Optimizer

variable {σ : Type} {b : Backend σ} {m : Model} {firsts : Nat} {o o' : Optimizer σ}

/-- A run is interrupted at one of its questions. -/
theorem not_uninterrupted : ¬o.Uninterrupted ↔ ∃ q ∈ o.questions, q.outcome = .interrupted := by
  unfold Uninterrupted
  push Not
  exact Iff.rfl

/-! ### How a search ends -/

/-- How a search for a model has ended; `firsts` is the number of questions that a search may put
before it has a solution. -/
structure Ended (m : Model) (firsts : Nat) (o : Optimizer σ) : Prop where
  /-- The model. -/
  model : o.model = m
  /-- Without an interruption there is a verdict. -/
  decided : o.Uninterrupted → o.phase = .optimal ∨ o.phase = .infeasible
  /-- An interruption is not passed over. -/
  interrupted : ¬o.Uninterrupted → o.phase = .timeout
  /-- What is optimal was found. -/
  found : o.phase = .optimal → o.best ≠ none
  /-- A model is refused for a reason. -/
  refused : o.phase = .infeasible → o.best = none ∧ ¬∃ value, m.Feasible value
  /-- Without a solution the search ends early. -/
  early : o.best = none → o.questions.length ≤ firsts
  /-- The best solution can be shown. -/
  presentable : ∀ s, o.best = some s → s.Presentable m

theorem Ended.mono {firsts' : Nat} (h : Ended m firsts o) (hle : firsts ≤ firsts') :
    Ended m firsts' o :=
  ⟨h.model, h.decided, h.interrupted, h.found, h.refused, fun hnone => (h.early hnone).trans hle,
    h.presentable⟩

section FirstQuestion

variable {clauses : σ → List Clause} {f : Formulation} {exprs : List Expr} {phase : Phase}

/-- Where there is no solution, a single question was asked. -/
theorem Prepared.questions_of_unsolved (h : Prepared clauses m f exprs phase o)
    (hun : Unsolved exprs o o') :
    o'.questions = [⟨none, .unsat⟩] ∨ o'.questions = [⟨none, .interrupted⟩] := by
  obtain ⟨hquestions, -, -, -⟩ := h.asked
  rcases hun.reason with ⟨-, -, hlast, -⟩ | ⟨-, hlast⟩
  · rw [hquestions] at hlast
    exact .inl hlast
  · rw [hquestions] at hlast
    exact .inr hlast

/-- The first question has no solution. -/
theorem ended_of_unsolved (h : Prepared clauses m f exprs phase o) (hun : Unsolved exprs o o')
    (hcomplete : ∀ value, m.Feasible value → Expr.AllHold (m.extended value) exprs) :
    Ended m 1 o' := by
  obtain ⟨hmodel, hbest⟩ := hun.kept
  obtain ⟨hquestions, -, hnone, -⟩ := h.asked
  rw [hnone] at hbest
  have hearly : o'.best = none → o'.questions.length ≤ 1 := by
    intro _
    rcases h.questions_of_unsolved hun with hlast | hlast <;> simp [hlast]
  have hpresentable : ∀ s, o'.best = some s → s.Presentable m := by
    intro s hs
    cases hbest.symm.trans hs
  rcases hun.reason with ⟨hphase, hrefused, hlast, -⟩ | ⟨hphase, hlast⟩
  · -- Refused: the formulation asks no more than feasibility, so nothing is feasible.
    have hall : o'.Uninterrupted := by simp [Uninterrupted, hlast, hquestions]
    refine ⟨hmodel.trans h.model, fun _ => .inr hphase, fun hint => absurd hall hint,
      fun hopt => ?_, fun _ => ⟨hbest, ?_⟩, hearly, hpresentable⟩
    · cases hphase.symm.trans hopt
    · rintro ⟨value, hvalue⟩
      exact hrefused ⟨_, hcomplete value hvalue⟩
  · have hint : ¬o'.Uninterrupted := fun hun => hun ⟨none, .interrupted⟩ (by simp [hlast]) rfl
    refine ⟨hmodel.trans h.model, fun hun => absurd hun hint, fun _ => hphase, fun hopt => ?_,
      fun hinf => ?_, hearly, hpresentable⟩
    · cases hphase.symm.trans hopt
    · cases hphase.symm.trans hinf

/-- The first question is the only one. -/
theorem ended_of_found {s : Solution} (h : Prepared clauses m f exprs phase o)
    (hfound : Found exprs o o' s) (hs : s.Presentable m) : Ended m 1 o' := by
  obtain ⟨hquestions, -, -, -⟩ := h.asked
  obtain ⟨hlast, -⟩ := hfound.asked
  rw [hquestions, List.nil_append] at hlast
  have hall : o'.Uninterrupted := by simp [Uninterrupted, hlast]
  refine ⟨hfound.model.trans h.model, fun _ => .inl hfound.phase, fun hint => absurd hall hint,
    fun _ hnone => ?_, fun hinf => ?_, fun _ => by simp [hlast], fun t ht => ?_⟩
  · cases hfound.best.symm.trans hnone
  · cases hfound.phase.symm.trans hinf
  · cases hfound.best.symm.trans ht
    exact hs

end FirstQuestion

/-! ### What the report says -/

/-- **Timeouts** are reported where a question was interrupted. -/
theorem Ended.timeout_iff (h : Ended m firsts o) :
    o.phase = .timeout ↔ ∃ q ∈ o.questions, q.outcome = .interrupted := by
  rw [← not_uninterrupted]
  constructor
  · intro htime hun
    rcases h.decided hun with hopt | hinf
    · cases htime.symm.trans hopt
    · cases htime.symm.trans hinf
  · exact h.interrupted

/-- **Infeasibility** is reported where nothing is feasible and no first question was cut off. -/
theorem Ended.infeasible_iff (h : Ended m firsts o) :
    o.phase = .infeasible ↔ (¬∃ value, m.Feasible value) ∧
      ∀ q ∈ o.questions.take firsts, q.outcome ≠ .interrupted := by
  constructor
  · intro hinf
    refine ⟨(h.refused hinf).2, fun q hq hint => ?_⟩
    have htime := h.timeout_iff.2 ⟨q, List.mem_of_mem_take hq, hint⟩
    cases htime.symm.trans hinf
  · rintro ⟨hnone, hfirst⟩
    -- There is no solution to show, so the first questions are all there are.
    have hbest : o.best = none := by
      cases hbest : o.best with
      | none => rfl
      | some s => exact absurd ⟨s.value, (h.presentable s hbest).feasible⟩ hnone
    rw [List.take_of_length_le (h.early hbest)] at hfirst
    rcases h.decided hfirst with hopt | hinf
    · exact absurd hbest (h.found hopt)
    · exact hinf

/-- What the report on a search says, and what it may say no more than. -/
structure Verdict (m : Model) (firsts : Nat) (r : Report) (o : Optimizer σ) : Prop where
  /-- The search has come to an end. -/
  status : r.status = .optimal ∨ r.status = .infeasible ∨ r.status = .timeout
  /-- Nothing is feasible, and the first questions were answered. -/
  infeasible : r.status = .infeasible ↔ (¬∃ value, m.Feasible value) ∧
    ∀ q ∈ o.questions.take firsts, q.outcome ≠ .interrupted
  /-- A question was interrupted. -/
  timeout : r.status = .timeout ↔ ∃ q ∈ o.questions, q.outcome = .interrupted
  /-- Where nothing is feasible, no assignment is shown. -/
  bare : r.status = .infeasible → r.assignment = []
  /-- Without a solution nothing is shown; otherwise a feasible one of all variables is. -/
  shown : (o.best = none ∧ r.assignment = [] ∧ r.tiers = [] ∧ r.status ≠ .optimal) ∨
    ∃ value, m.Feasible value ∧ r.assignment = m.vars.map (fun x => (x.name, value x.name)) ∧
      r.hardViolations = 0

/-- Without an interruption the report is a verdict, and nothing is refused that is feasible. -/
theorem Ended.decided_report (h : Ended m firsts o) {name : String} {r : Report}
    (hr : o.report b name = .ok r) (hun : o.Uninterrupted) :
    (r.status = .optimal ∨ r.status = .infeasible) ∧
      (r.status = .infeasible ↔ ¬∃ value, m.Feasible value) := by
  rw [(Report.new_status hr).1]
  refine ⟨h.decided hun, h.infeasible_iff.trans (and_iff_left fun q hq => ?_)⟩
  exact hun q (List.mem_of_mem_take hq)

/-- What the report shows of the best solution. -/
theorem Ended.report_best (hm : m.WellFormed) (h : Ended m firsts o) {name : String} {r : Report}
    (hr : o.report b name = .ok r) {s : Solution} (hs : o.best = some s) :
    r.assignment = m.vars.map (fun x => (x.name, s.value x.name)) ∧ r.hardViolations = 0 ∧
      r.tiers = m.tiers.map (fun t => (t.price, m.tierTotal s.value t.price)) := by
  obtain ⟨hcovers, hfeasible⟩ := h.presentable s hs
  unfold Optimizer.report at hr
  rw [h.model, hs] at hr
  obtain ⟨hassignment, hhard, htiers, -⟩ := Report.new_eq_ok hm hcovers hfeasible.inDomains hr
  rw [Model.hardCount_eq_zero hm hfeasible] at hhard
  exact ⟨hassignment, hhard, htiers⟩

/-- The objective of the report is what the best solution costs, provided that this fits. -/
theorem Ended.report_objective (hm : m.WellFormed) (h : Ended m firsts o) {name : String}
    {r : Report} (hr : o.report b name = .ok r) {s : Solution} (hs : o.best = some s)
    (hfits : m.cost s.value ≤ Word.greatest) : r.objective = some (m.cost s.value) := by
  obtain ⟨hcovers, hfeasible⟩ := h.presentable s hs
  unfold Optimizer.report at hr
  rw [h.model, hs] at hr
  obtain ⟨-, -, -, hobjective⟩ := Report.new_eq_ok hm hcovers hfeasible.inDomains hr
  rw [hobjective, Report.objective?_eq_some hfits]

/-- A report shows nothing, or a feasible assignment, without hard violations. -/
theorem Ended.shown (hm : m.WellFormed) (h : Ended m firsts o) {name : String} {r : Report}
    (hr : o.report b name = .ok r) :
    (o.best = none ∧ r.assignment = [] ∧ r.tiers = [] ∧ r.status ≠ .optimal) ∨
      ∃ value, m.Feasible value ∧ r.assignment = m.vars.map (fun x => (x.name, value x.name)) ∧
        r.hardViolations = 0 := by
  cases hbest : o.best with
  | none =>
    unfold Optimizer.report at hr
    rw [hbest] at hr
    cases hr
    exact .inl ⟨rfl, rfl, rfl, fun hopt => h.found hopt hbest⟩
  | some s =>
    obtain ⟨hassignment, hhard, -⟩ := h.report_best hm hr hbest
    exact .inr ⟨s.value, (h.presentable s hbest).feasible, hassignment, hhard⟩

/-- **Verdicts.** A report on the end of a search says what it may say. -/
theorem Ended.verdict (hm : m.WellFormed) (h : Ended m firsts o) {name : String} {r : Report}
    (hr : o.report b name = .ok r) : Verdict m firsts r o := by
  have hstatus := (Report.new_status hr).1
  have hshown := h.shown hm hr
  refine ⟨?_, ?_, ?_, fun hinf => ?_, hshown⟩
  · rw [hstatus]
    by_cases hun : o.Uninterrupted
    · exact (h.decided hun).imp_right .inl
    · exact .inr (.inr (h.interrupted hun))
  · rw [hstatus]
    exact h.infeasible_iff
  · rw [hstatus]
    exact h.timeout_iff
  · rcases hshown with ⟨-, hnone, -⟩ | ⟨value, hvalue, -⟩
    · exact hnone
    · exact absurd ⟨value, hvalue⟩ (h.refused (hstatus ▸ hinf)).2

/-- How the steps of a method end: as long as there is room, with a report that is good or an error
that is excused; and otherwise with an overflow. -/
def Ends (x : EStateM.Result (Failure MethodError) (Optimizer σ) Report)
    (good : Report → Optimizer σ → Prop) : Prop :=
  match x with
  | .ok r o' => o'.Room → good r o'
  | .error (.fault t) _ => t.IsOverflow
  | .error (.error e) o' => o'.Room → Excused e

theorem Runs.ends {x : Action σ Report} {post good : Report → Optimizer σ → Prop}
    (h : Runs (fun _ => True) x o post) (himp : ∀ r o', post r o' → good r o') :
    Ends (x o) good := by
  unfold Runs at h
  unfold Ends
  cases hx : x o with
  | ok r o' =>
    rw [hx] at h
    exact fun hroom => himp r o' (h.2 hroom)
  | error e o' =>
    rw [hx] at h
    cases e with
    | fault _ => exact h
    | error e => exact fun hroom => h.2 hroom trivial

end Optimizer

namespace Strategy

/-- The optimizer for a model on a session whose backend has just begun. -/
def startOn {σ : Type} (s : σ) (m : Model) : Optimizer σ := .initial m {} (.fresh s) 0

/-- The optimizer for a model on the reference backend, which knows the true literal only. -/
def referenceStart (m : Model) : Optimizer (List Clause) := startOn [[Session.topLit]] m

/-- The optimizer for a small model. -/
def forcedStart : Optimizer (List Clause) := referenceStart Model.Sample.forced

/-- The optimizer for a small model with two prices. -/
def tornStart : Optimizer (List Clause) := referenceStart Model.Sample.torn

end Strategy

end WeightedCsp

import WeightedCsp.Proofs.Method.Bisection
import WeightedCsp.Proofs.Method.TwoStep

/-!
# Verdicts under interruptions

Whichever questions are interrupted, no strategy says more than it knows
(`Strategy.verdicts_sound`): a model is refused only if nothing is feasible, an end without an
interruption is a verdict, and what is shown is feasible.  In particular no tier is ever stuck: the
bounds of heavier tiers may be far from the least ones after an interruption, but the best solution
satisfies them and extends to what comes next.

All strategies come down to one fact: they end with a report on a search that has `Ended`.
-/

namespace WeightedCsp.Strategy

open Optimizer

variable {σ : Type} {b : Backend σ} {clauses : σ → List Clause} {m : Model} {o : Optimizer σ}
  {fair : Optimizer σ → Prop}

/-- **Strategies.** Without a warm start a search ends after one question, or has a solution. -/
theorem runs_complete (hb : b.Sound clauses) (hm : m.Formulable)
    (h : Prepared clauses m .empty [] .start o) (run : LocalSearch.Runner) {strategy : Strategy}
    (hcold : strategy ≠ .hybrid) :
    Runs fair (complete b run strategy) o fun r o' =>
      Ended m 1 o' ∧ o'.report b strategy.name = .ok r := by
  cases strategy with
  | linear =>
    refine (runs_linear hb hm h run).mono fun r o' _ _ h' => ?_
    obtain ⟨os, -, hsearched, hreport⟩ := h'
    exact ⟨hsearched.toEnded, hreport⟩
  | binary =>
    refine (runs_binary hb hm h run).mono fun r o' _ _ h' => ?_
    obtain ⟨os, -, hhalved, hreport⟩ := h'
    exact ⟨hhalved.toEnded, hreport⟩
  | firstStep =>
    exact (runs_steps hb hm h run false).mono fun r o' _ _ h' => ⟨h'.1.toEnded, h'.2⟩
  | twoStep =>
    exact (runs_steps hb hm h run true).mono fun r o' _ _ h' => ⟨h'.1.toEnded, h'.2⟩
  | incremental =>
    rw [complete_incremental]
    have hnone : Pins m none := by simp [Pins]
    exact (runs_completeTiers hb hm h hnone _).mono fun r o' _ _ h' => ⟨h'.1.toEnded, h'.2⟩
  | hybrid => exact absurd rfl hcold

/-- **Verdicts.** Whichever questions are interrupted and whatever a warm start assumes, a report
says that nothing is feasible exactly if that is so and the first questions were answered, it says
that time ran out exactly if a question was interrupted, and what it shows is feasible.  Without a
report there was an overflow, or an encoding or the backend has failed, so no tier is stuck. -/
theorem verdicts_sound (hb : b.Sound clauses) {s₀ : σ} (h₀ : clauses s₀ = []) (hm : m.Built)
    (hnames : ∀ x ∈ m.vars, Names.isReserved x.name = false) {options : MethodOptions}
    (hnew : Optimizer.new b s₀ m options = .ok o) (run : LocalSearch.Runner) :
    (∀ strategy, strategy ≠ .hybrid → Ends (complete b run strategy o) (Verdict m 1)) ∧
    (∀ warm : WarmStart, (∀ p ∈ warm.pins, ∃ x ∈ m.vars, x.name = p.1) →
      Ends (completeTiers b (some warm) hybrid.name o) (Verdict m 2)) ∧
    ∀ r o', complete b run .hybrid o = .ok r o' → o'.Room → Verdict m 2 r o' := by
  obtain ⟨hprepared, hsupported⟩ := prepared_new hb h₀ hnew
  have hform := Model.formulable_of_built hm hnames hsupported
  refine ⟨fun strategy hcold => ?_, fun warm hwarm => ?_, fun r o' heq hroom => ?_⟩
  · refine (runs_complete hb hform hprepared run hcold).ends fun r o' h => ?_
    exact h.1.verdict hform.toWellFormed h.2
  · have hpins : Pins m (some warm) := by
      intro w hw
      cases hw
      exact hwarm
    refine (runs_completeTiers hb hform hprepared hpins _).ends fun r o' h => ?_
    exact h.1.toEnded.verdict hform.toWellFormed h.2
  · obtain ⟨-, hend⟩ := (runs_hybrid hb hform hprepared run).of_eq_ok heq
    exact (hend hroom).1.toEnded.verdict hform.toWellFormed (hend hroom).2

/-- The backend that gives up on the second question. -/
def secondCut : Backend (Nat × List Clause) := .cut (· = 1) .reference

/-- The optimizer for a small model with two prices, on a backend that gives up on the second
question. -/
def cutStart : Optimizer (Nat × List Clause) := startOn (0, [[Session.topLit]]) Model.Sample.torn

/-- The descent of the first tier is interrupted, so its bound is not the least one; the second tier
goes on from there. -/
theorem verdicts_sound_cut : ∃ r o',
    complete secondCut (fun _ => .killed) .incremental cutStart = .ok r o' ∧ o'.Room ∧
      r.tiers = [(2, 1), (1, 0)] ∧ r.status = .timeout ∧
      (∃ q ∈ o'.questions, q.outcome = .interrupted) ∧
      ∃ value, Model.Sample.torn.Feasible value ∧ r.assignment = [("y", value "y")] ∧
        r.hardViolations = 0 := by
  have hrun : digest (complete secondCut (fun _ => .killed) .incremental cutStart) =
      some ⟨.timeout, some 2, [(2, 1), (1, 0)], 4, 16, false⟩ := by cbv
  obtain ⟨r, o', heq, hroom, hdigest⟩ := exists_run_of_digest hrun (by decide)
  have hsound := (verdicts_sound (Backend.cut_sound Backend.reference_sound (· = 1)) rfl
    Model.Sample.built_torn (by decide)
    (show Optimizer.new secondCut (0, []) Model.Sample.torn {} = .ok cutStart from rfl)
    fun _ => .killed).1 .incremental (by decide)
  have hverdict : Verdict Model.Sample.torn 1 r o' := by
    rw [show complete (.cut (· = 1) .reference) (fun _ => .killed) .incremental cutStart = .ok r o'
      from heq] at hsound
    exact hsound hroom
  have hstatus : r.status = .timeout := congrArg Digest.status hdigest
  have htiers : r.tiers = [(2, 1), (1, 0)] := congrArg Digest.tiers hdigest
  refine ⟨r, o', heq, hroom, htiers, hstatus, hverdict.timeout.1 hstatus, ?_⟩
  rcases hverdict.shown with ⟨-, -, hnone, -⟩ | hshown
  · cases htiers.symm.trans hnone
  · exact hshown

end WeightedCsp.Strategy

import Mathlib.Data.Nat.Log
import WeightedCsp.Proofs.Method.WeightedSum

/-!
# Bisecting the objective is exact

Bisection keeps an interval `(lb, ub]` that the least objective lies in.  One turn of its loop
(`bisectTurn`) asks for the lower half.  The invariant (`Bisecting`) is that nothing has an
objective up to `lb`, that the best solution has the objective `ub`, and that the bounds which were
added let through whatever has an objective up to `ub`:

* a solution in the lower half moves `ub` down to its objective, which may be well below the middle;
* a refusal moves `lb` up to the middle, since whatever has an objective up to the middle would have
  been let through.

Either way the interval is halved (`runs_bisectTurn`), so the number of questions is logarithmic
(`clog_succ_le`).  When the interval is down to `ub` alone, the best solution has the least
objective.
-/

namespace WeightedCsp

namespace Model

variable {m : Model} {value : String → Int}

theorem cost_nonneg (m : Model) (value : String → Int) : 0 ≤ m.cost value :=
  Report.weighted_nonneg (fun c => c.amount_nonneg value) m.constraints

/-- Where something is feasible, something is cheapest. -/
theorem exists_cheapest (h : m.Feasible value) : ∃ other, m.Cheapest other := by
  have hwf := (measure fun value : String → Int => (m.cost value).toNat).wf
  obtain ⟨other, hother, hmin⟩ := hwf.has_min {value | m.Feasible value} ⟨value, h⟩
  refine ⟨other, hother, fun third hthird => ?_⟩
  have hnot : ¬(m.cost third).toNat < (m.cost other).toNat := hmin third hthird
  have hthird₀ := m.cost_nonneg third
  omega

theorem Cheapest.cost_eq {other : String → Int} (h : m.Cheapest value) (hother : m.Cheapest other) :
    m.cost value = m.cost other :=
  Int.le_antisymm (h.2 other hother.1) (hother.2 value h.1)

end Model

namespace Optimizer

variable {σ : Type} {b : Backend σ} {clauses : σ → List Clause} {m : Model} {exprs os : List Expr}
  {lb ub : Int} {o o' : Optimizer σ} {fair : Optimizer σ → Prop}

/-! ### One turn of the loop -/

/-- Asks for an objective in the lower half of `(lb, ub]`, and gives the half that is left. -/
def bisectTurn (b : Backend σ) (lb ub : Int) : Action σ (Option (Int × Int)) := do
  let mid := lb + (ub - lb).tdiv 2
  assume b Names.objective .le mid
  match ← ask b (some mid) with
  | .sat s => do
    let ub ← valueOf s Names.objective
    bindValue Names.objective .le ub
    record s
    return some (lb, ub)
  | .unsat => do
    bindValue Names.objective .gt mid
    return some (mid, ub)
  | .interrupted => return none

/-- The loop takes one turn after the other. -/
theorem bisect_succ (b : Backend σ) (fuel : Nat) (lb ub : Int) :
    bisect b (fuel + 1) lb ub = (do
      let width ← (Word.sub ub lb : Checked Int)
      if width ≤ 1 then enter b .optimal
      else
        match ← bisectTurn b lb ub with
        | some (lb, ub) => bisect b fuel lb ub
        | none => enter b .timeout) := by
  rw [bisect]
  cases hwidth : Word.sub ub lb with
  | error t => rfl
  | ok width =>
    obtain rfl := (Word.fit_eq_ok_iff.1 hwidth).2
    show (if ub - lb ≤ 1 then _ else _ : Action σ Unit) = if ub - lb ≤ 1 then _ else _
    refine if_congr Iff.rfl rfl ?_
    unfold bisectTurn
    simp only [bind_assoc]
    refine congrArg _ (funext fun _ => congrArg _ (funext fun outcome => ?_))
    cases outcome with
    | sat s => simp only [bind_assoc, pure_bind]
    | unsat => simp only [bind_assoc, pure_bind]
    | interrupted => simp only [pure_bind]

/-- The least objective lies in `(lb, ub]`, and the best solution has the objective `ub`. -/
structure Bisecting (clauses : σ → List Clause) (m : Model) (exprs : List Expr) (lb ub : Int)
    (o : Optimizer σ) : Prop where
  /-- The model. -/
  model : o.model = m
  /-- The objective is declared. -/
  declared : Names.objective ∈ Expr.declaredBy exprs
  /-- Bounds were added that an objective up to `ub` satisfies. -/
  stands : ∃ more, o.session.Stands clauses m.valuesOf (Expr.declaredBy exprs) (exprs ++ more) [] ∧
    ∀ value, Expr.AllHold value exprs → value Names.objective ≤ ub → Expr.AllHold value more
  /-- No objective is up to `lb`. -/
  above : ∀ value, Expr.AllHold value exprs → lb < value Names.objective
  /-- The best solution has the objective `ub`. -/
  solution : ∃ s, o.best = some s ∧ Outcome.RightFor exprs [] (.sat s) ∧
    s.value Names.objective = ub

theorem Bisecting.lt (h : Bisecting clauses m exprs lb ub o) : lb < ub := by
  obtain ⟨s, -, hright, rfl⟩ := h.solution
  exact h.above s.value hright.2.1

/-- What comes of a turn. -/
structure Turned (clauses : σ → List Clause) (m : Model) (exprs : List Expr) (lb ub : Int)
    (o : Optimizer σ) (r : Option (Int × Int)) (o' : Optimizer σ) : Prop where
  /-- One question was asked, and it is interrupted if no half is left. -/
  asked : ∃ q, o'.questions = o.questions ++ [q] ∧ (r = none ↔ q.outcome = .interrupted)
  /-- One half is left. -/
  halved : ∀ lb' ub', r = some (lb', ub') → Bisecting clauses m exprs lb' ub' o' ∧
    2 * (ub' - lb') ≤ ub - lb + 1 ∧ o'.solves = o.solves + 1
  /-- After an interruption the best solution is the old one. -/
  kept : r = none → o'.model = o.model ∧ o'.best = o.best
  /-- No solution that was found is better than the best one. -/
  foremost : o.Foremost Names.objective → o'.Foremost Names.objective

section Turn

variable {mid : Int} {outcome : Outcome}

/-- A solution in the lower half. -/
theorem Bisecting.lower (h : Bisecting clauses m exprs lb ub o) {more : List Expr}
    (hmore : ∀ value, Expr.AllHold value exprs → value Names.objective ≤ ub →
      Expr.AllHold value more)
    (hmid : mid < ub) {s : Solution}
    (hasked : Asked b clauses m.valuesOf (Expr.declaredBy exprs) (exprs ++ more)
      [⟨Names.objective, .le, mid⟩] (some mid) o (.sat s) o') :
    s.value Names.objective ≤ mid ∧ Bisecting clauses m exprs lb (s.value Names.objective)
      { o' with
        session := o'.session.addExprs [Expr.cmp Names.objective .le (s.value Names.objective)]
        best := some s } := by
  obtain ⟨left, hleft, hused⟩ := hasked.stands
  obtain ⟨rfl, -⟩ := hused (by simp)
  have hle : s.value Names.objective ≤ mid := hasked.right.2.2 _ List.mem_cons_self
  refine ⟨hle, ?_, h.declared,
    ⟨more ++ [Expr.cmp Names.objective .le (s.value Names.objective)], ?_,
      fun value hall hvalue => ?_⟩, h.above, s, rfl, hasked.right.of_append, rfl⟩
  · rw [hasked.frame]
    exact h.model
  · rw [← List.append_assoc]
    exact hleft.bound h.declared .le _
  · exact Expr.allHold_append.2 ⟨hmore value hall (by omega), Expr.holds_cmp.2 hvalue, trivial⟩

/-- Nothing in the lower half. -/
theorem Bisecting.upper (h : Bisecting clauses m exprs lb ub o) {more : List Expr}
    (hmore : ∀ value, Expr.AllHold value exprs → value Names.objective ≤ ub →
      Expr.AllHold value more)
    (hmid : mid < ub)
    (hasked : Asked b clauses m.valuesOf (Expr.declaredBy exprs) (exprs ++ more)
      [⟨Names.objective, .le, mid⟩] (some mid) o .unsat o') :
    Bisecting clauses m exprs mid ub
      { o' with session := o'.session.addExprs [Expr.cmp Names.objective .gt mid] } := by
  obtain ⟨left, hleft, hused⟩ := hasked.stands
  obtain ⟨rfl, -⟩ := hused (by simp)
  have habove : ∀ value, Expr.AllHold value exprs → mid < value Names.objective := by
    intro value hall
    by_contra hle
    -- Such values satisfy the bounds so far too, so the question would not have been refused.
    refine hasked.right ⟨value, Expr.allHold_append.2 ⟨hall, hmore value hall (by omega)⟩, ?_⟩
    intro a ha
    rw [List.mem_singleton.1 ha]
    exact Int.not_lt.1 hle
  obtain ⟨s, hbest, hright, hvalue⟩ := h.solution
  refine ⟨?_, h.declared,
    ⟨more ++ [Expr.cmp Names.objective .gt mid], ?_, fun value hall hle => ?_⟩, habove, s, ?_,
    hright, hvalue⟩
  · rw [hasked.frame]
    exact h.model
  · rw [← List.append_assoc]
    exact hleft.bound h.declared .gt mid
  · refine Expr.allHold_append.2 ⟨hmore value hall hle, ?_, trivial⟩
    exact Expr.holds_cmp.2 (habove value hall)
  · rw [hasked.frame]
    exact hbest

end Turn

/-- **Turns.** A turn leaves one half of the interval, unless it is interrupted. -/
theorem runs_bisectTurn (hb : b.Sound clauses) (h : o.Room → Bisecting clauses m exprs lb ub o)
    (hwidth : 1 < ub - lb) :
    Runs fair (bisectTurn b lb ub) o (Turned clauses m exprs lb ub o) := by
  -- The middle is rounded down, so it lies below `ub`.
  have hdiv : (ub - lb).tdiv 2 = (ub - lb) / 2 := Int.tdiv_eq_ediv_of_nonneg (by omega)
  have hmid : lb + (ub - lb).tdiv 2 < ub := by omega
  unfold bisectTurn
  generalize hm : lb + (ub - lb).tdiv 2 = mid at hmid
  obtain ⟨more, hmore⟩ := exists_of_imp fun hroom => (h hroom).stands
  refine (runs_assume hb (fun hroom => (hmore hroom).1) (fun hroom => (h hroom).declared) .le
    mid).bind fun _ o₁ hlater₁ h₁ => ?_
  refine (runs_ask hb (fun hroom => (h₁ hroom).2) (some mid)).bind fun outcome o₂ hlater₂ h₂ => ?_
  have hstart : o₂.Room → o.Room := (hlater₁.trans hlater₂).room
  have hasked : o₂.Room → Asked b clauses m.valuesOf (Expr.declaredBy exprs) (exprs ++ more)
      [⟨Names.objective, .le, mid⟩] (some mid) o outcome o₂ :=
    fun hroom => (h₂ hroom).of_session (h₁ (hlater₂.room hroom)).1
  have hquestions : o₂.Room → o₂.questions = o.questions ++ [⟨some mid, outcome⟩] := by
    intro hroom
    rw [(hasked hroom).frame]
  cases outcome with
  | sat s =>
    refine runs_valueOf_bind (fun hroom => ?_) (runs_queue_bind (runs_record_bind
      (runs_pure fun hroom => ?_)))
    · exact (hasked hroom).right.of_append.get? (h (hstart hroom)).declared
    · have hroom₂ : o₂.Room := hroom
      obtain ⟨hle, hnext⟩ :=
        (h (hstart hroom₂)).lower (hmore (hstart hroom₂)).2 hmid (hasked hroom₂)
      obtain ⟨left, -, hused⟩ := (hasked hroom₂).stands
      obtain ⟨t, ht, -, hvalue⟩ := (h (hstart hroom₂)).solution
      refine ⟨⟨_, hquestions hroom₂, by simp⟩, fun lb' ub' heq => ?_, fun hnone => (by cases hnone),
        fun hforemost => hforemost.replace ht rfl (hquestions hroom₂) (by omega)⟩
      cases heq
      exact ⟨hnext, by omega, (hused (by simp)).2⟩
  | unsat =>
    refine runs_queue_bind (runs_pure fun hroom => ?_)
    have hroom₂ : o₂.Room := hroom
    have hnext := (h (hstart hroom₂)).upper (hmore (hstart hroom₂)).2 hmid (hasked hroom₂)
    obtain ⟨left, -, hused⟩ := (hasked hroom₂).stands
    have hbest : o₂.best = o.best := by rw [(hasked hroom₂).frame]
    refine ⟨⟨_, hquestions hroom₂, by simp⟩, fun lb' ub' heq => ?_, fun hnone => (by cases hnone),
      fun hforemost => hforemost.keep hbest (hquestions hroom₂) (by simp)⟩
    cases heq
    exact ⟨hnext, by omega, (hused (by simp)).2⟩
  | interrupted =>
    refine runs_pure fun hroom => ?_
    have hbest : o₂.best = o.best := by rw [(hasked hroom).frame]
    refine ⟨⟨_, hquestions hroom, by simp⟩, fun _ _ heq => (by cases heq), fun _ => ⟨?_, hbest⟩,
      fun hforemost => hforemost.keep hbest (hquestions hroom) (by simp)⟩
    rw [(hasked hroom).frame]

/-! ### The loop -/

/-- One question halves what is left to be asked. -/
theorem clog_succ_le {w w' : Nat} (hw : 1 < w) (hhalf : 2 * w' ≤ w + 1) :
    Nat.clog 2 w' + 1 ≤ Nat.clog 2 w := by
  rw [Nat.clog_of_one_lt Nat.one_lt_two hw]
  exact Nat.succ_le_succ (Nat.clog_mono_right 2 (by omega))

/-- What the loop comes to. -/
structure Bisected (m : Model) (exprs : List Expr) (lb ub : Int) (o o' : Optimizer σ) : Prop where
  /-- The model. -/
  model : o'.model = m
  /-- The best solution satisfies everything, and at the end its objective is the least. -/
  solution : ∃ s, o'.best = some s ∧ Outcome.RightFor exprs [] (.sat s) ∧
    (o'.phase = .optimal → ∀ value, Expr.AllHold value exprs →
      s.value Names.objective ≤ value Names.objective)
  /-- No solution that was found is better than the best one. -/
  foremost : o.Foremost Names.objective → o'.Foremost Names.objective
  /-- All questions were answered and they are few, or one was interrupted. -/
  questions : ∃ qs, o'.questions = o.questions ++ qs ∧
    ((o'.phase = .optimal ∧ (∀ q ∈ qs, q.outcome ≠ .interrupted) ∧
        o'.solves = o.solves + qs.length ∧ qs.length ≤ Nat.clog 2 (ub - lb).toNat) ∨
      (o'.phase = .timeout ∧ ∃ q ∈ qs, q.outcome = .interrupted))

/-- An interval of one number. -/
theorem Bisecting.finish (h : Bisecting clauses m exprs lb ub o) (hwidth : ub - lb ≤ 1)
    (took : Option Nat) :
    Bisected m exprs lb ub o { o with phase := .optimal, took := took } := by
  obtain ⟨s, hbest, hright, hvalue⟩ := h.solution
  refine ⟨h.model, ⟨s, hbest, hright, fun _ value hall => ?_⟩, id, [], (List.append_nil _).symm,
    .inl ⟨rfl, by simp, rfl, by simp⟩⟩
  have habove := h.above value hall
  omega

theorem Bisected.of_turned {lb' ub' : Int} {o₁ : Optimizer σ}
    (hturn : Turned clauses m exprs lb ub o (some (lb', ub')) o₁) (hwidth : 1 < ub - lb)
    (h : Bisected m exprs lb' ub' o₁ o') : Bisected m exprs lb ub o o' := by
  obtain ⟨q, hq, hanswered⟩ := hturn.asked
  obtain ⟨hnext, hhalf, hsolves⟩ := hturn.halved lb' ub' rfl
  obtain ⟨qs, hqs, hend⟩ := h.questions
  have hlt := hnext.lt
  refine ⟨h.model, h.solution, fun hforemost => h.foremost (hturn.foremost hforemost), q :: qs, ?_,
    ?_⟩
  · rw [hqs, hq, List.append_assoc]
    rfl
  · -- One question halves the interval, so the logarithm has one to spare for the rest.
    rcases hend with ⟨hphase, hall, hcount, hfew⟩ | ⟨hphase, p, hp, hint⟩
    · have hclog : Nat.clog 2 (ub' - lb').toNat + 1 ≤ Nat.clog 2 (ub - lb).toNat :=
        clog_succ_le (by omega) (by omega)
      refine .inl ⟨hphase, List.forall_mem_cons.2 ⟨fun hint => ?_, hall⟩, ?_, ?_⟩
      · cases hanswered.2 hint
      · rw [hcount, hsolves, List.length_cons]
        omega
      · rw [List.length_cons]
        omega
    · exact .inr ⟨hphase, p, List.mem_cons_of_mem _ hp, hint⟩

/-- An interruption ends the loop with the solution so far. -/
theorem Bisecting.stop (h : Bisecting clauses m exprs lb ub o)
    (hturn : Turned clauses m exprs lb ub o none o') (took : Option Nat) :
    Bisected m exprs lb ub o { o' with phase := .timeout, took := took } := by
  obtain ⟨q, hq, hint⟩ := hturn.asked
  obtain ⟨hmodel, hbest⟩ := hturn.kept rfl
  obtain ⟨s, hs, hright, -⟩ := h.solution
  exact ⟨hmodel.trans h.model, ⟨s, hbest.trans hs, hright, fun hopt => by cases hopt⟩,
    hturn.foremost, [q], hq, .inr ⟨rfl, q, List.mem_cons_self, hint.1 rfl⟩⟩

theorem runs_bisect (hb : b.Sound clauses) {fuel : Nat} (hfuel : o.Room → ub - lb ≤ fuel)
    (h : o.Room → Bisecting clauses m exprs lb ub o) :
    Runs fair (bisect b fuel lb ub) o fun _ o' => Bisected m exprs lb ub o o' := by
  induction fuel generalizing o lb ub with
  | zero =>
    -- The interval is never empty, so the fuel lasts.
    refine runs_enter fun took hroom => ?_
    have hlt := (h hroom).lt
    have hempty := hfuel hroom
    omega
  | succ fuel ih =>
    rw [bisect_succ]
    refine runs_checked_bind (Word.tame_sub ub lb) fun width hsub => ?_
    obtain rfl := (Word.fit_eq_ok_iff.1 hsub).2
    by_cases hwidth : ub - lb ≤ 1
    · simp only [hwidth, ↓reduceIte]
      exact runs_enter fun took hroom => (h hroom).finish hwidth took
    · simp only [hwidth, ↓reduceIte]
      refine (runs_bisectTurn hb h (by omega)).bind fun r o₁ hlater₁ h₁ => ?_
      cases r with
      | none =>
        exact runs_enter fun took hroom => (h (hlater₁.room hroom)).stop (h₁ hroom) took
      | some half =>
        obtain ⟨lb', ub'⟩ := half
        have hnext := fun hroom : o₁.Room => (h₁ hroom).halved lb' ub' rfl
        refine (ih (fun hroom => ?_) fun hroom => (hnext hroom).1).mono
          fun _ o₂ hlater₂ hroom h₂ => ?_
        · have hhalf := (hnext hroom).2.1
          have hbound := hfuel (hlater₁.room hroom)
          omega
        · exact .of_turned (h₁ (hlater₂.room hroom)) (by omega) h₂

/-! ### The search -/

/-- What bisecting the objective comes to. -/
structure Halved (m : Model) (exprs : List Expr) (o : Optimizer σ) : Prop extends
    Settled m exprs o where
  /-- The number of questions is logarithmic in the objective of the first solution. -/
  few : o.phase = .optimal → m.softConstraints ≠ [] → ∃ s rest first,
    o.questions = ⟨none, .sat s⟩ :: rest ∧ s.get? Names.objective = some first ∧
    o.questions.length ≤ 1 + Nat.clog 2 (first + 1).toNat

section FirstQuestion

variable {f : Formulation} {phase : Phase} {s : Solution}

theorem halved_of_unsolved (hm : m.Formulable) (hos : Formulation.objectiveExprs m = .ok os)
    (h : Prepared clauses m f (Formulation.entityExprs m ++ os) phase o)
    (hun : Unsolved (Formulation.entityExprs m ++ os) o o') :
    Halved m (Formulation.entityExprs m ++ os) o' := by
  refine ⟨settled_of_unsolved hm hos h hun, fun hopt => ?_⟩
  rcases hun.reason with ⟨hphase, -⟩ | ⟨hphase, -⟩
  · cases hphase.symm.trans hopt
  · cases hphase.symm.trans hopt

theorem halved_of_found (hm : m.Formulable)
    (h : Prepared clauses m f (Formulation.entityExprs m ++ os) phase o)
    (hsoft : m.softConstraints = []) (hfound : Found (Formulation.entityExprs m ++ os) o o' s) :
    Halved m (Formulation.entityExprs m ++ os) o' :=
  ⟨settled_of_found hm h hsoft hfound, fun _ hne => absurd hsoft hne⟩

end FirstQuestion

/-- The interval of the first solution. -/
theorem Begun.bisecting {s : Solution} (h : Begun clauses m exprs s o) :
    Bisecting clauses m exprs (-1) (s.value Names.objective) o := by
  refine ⟨h.model, h.descending.declared, ⟨[], ?_, fun _ _ _ => trivial⟩, fun value hall => ?_,
    h.descending.solution⟩
  · rw [List.append_nil]
    exact h.descending.stands
  · have hnonneg := h.descending.nonneg value hall
    omega

theorem Begun.halved (hm : m.Formulable) {s : Solution}
    (h : Begun clauses m (Formulation.entityExprs m ++ os) s o)
    (hend : Bisected m (Formulation.entityExprs m ++ os) (-1) (s.value Names.objective) o o') :
    Halved m (Formulation.entityExprs m ++ os) o' := by
  obtain ⟨t, hbest, hright, hleast⟩ := hend.solution
  obtain ⟨qs, hqs, hend'⟩ := hend.questions
  obtain ⟨hquestions, hsolves⟩ := h.asked
  have hforemost := hend.foremost h.foremost
  have hall : o'.questions = ⟨none, .sat s⟩ :: qs := by
    rw [hqs, hquestions]
    rfl
  rcases hend' with ⟨hphase, hanswered, hcount, hfew⟩ | ⟨hphase, q, hq, hint⟩
  · have hun : o'.Uninterrupted := by
      unfold Uninterrupted
      rw [hall]
      exact List.forall_mem_cons.2 ⟨by simp, hanswered⟩
    have hlength : o'.solves = o'.questions.length := by
      rw [hcount, hall, hsolves, List.length_cons]
      omega
    have hfirst : s.get? Names.objective = some (s.value Names.objective) := by
      obtain ⟨first, hfirst, hright, -⟩ := h.descending.solution
      cases h.best.symm.trans hfirst
      exact hright.get? h.descending.declared
    refine ⟨settled_of_best hm hend.model h.soft hbest hright hforemost
      (.inl ⟨hphase, hun, hlength, hleast hphase⟩), fun _ _ => ⟨s, qs, _, hall, hfirst, ?_⟩⟩
    -- The interval starts at -1, so its width is one more than the first objective.
    rw [Int.sub_neg] at hfew
    rw [hall, List.length_cons]
    omega
  · have hnot : ¬o'.Uninterrupted := fun hun => hun q (by simp [hall, hq]) hint
    refine ⟨settled_of_best hm hend.model h.soft hbest hright hforemost (.inr ⟨hphase, hnot⟩),
      fun hopt => ?_⟩
    cases hphase.symm.trans hopt

/-- **Bisection.** -/
theorem runs_searchBinary (hb : b.Sound clauses) (hm : m.Formulable)
    (hos : o.Room → Formulation.objectiveExprs m = .ok os)
    (h : o.Room → Prepared clauses m (.ofModel m) (Formulation.entityExprs m ++ os) .encoded o) :
    Runs fair (searchBinary b) o fun _ o' => Halved m (Formulation.entityExprs m ++ os) o' := by
  refine runs_search hb hm hos h (fun _ _ => halved_of_unsolved hm)
    (fun _ _ _ => halved_of_found hm)
    (k := fun first => do bisect b ((first + 1).toNat + (← get).spareTurns) (-1) first)
    fun s o₁ h₁ => runs_get_bind ?_
  refine (runs_bisect hb (fun _ => by omega) fun hroom => (h₁ hroom).2.bisecting).mono
    fun _ o₂ hlater hroom h₂ => ?_
  exact (h₁ (hlater.room hroom)).2.halved hm h₂

/-! ### The heads of the loop -/

/-- The states in which the loop of a bisection from `o` is about to take another turn, with the
interval at hand. -/
inductive LoopHead (b : Backend σ) (o : Optimizer σ) : Int → Int → Optimizer σ → Prop
  /-- The loop is entered with the first solution. -/
  | enter {o₁ o₂ o₃ o₄ : Optimizer σ} {s : Solution} {first : Int}
      (hformulate : formulateAll b o = .ok () o₁) (hencode : encode b o₁ = .ok () o₂)
      (hbegin : beginSearch b o₂ = .ok () o₃) (hobjective : o₃.formulation.hasObjective)
      (hsolution : firstSolution b o₃ = .ok (some s) o₄)
      (hfirst : s.get? Names.objective = some first) :
      LoopHead b o (-1) first { o₄ with best := some s }
  /-- A turn leads to the next one. -/
  | turn {lb ub lb' ub' : Int} {o₁ o₂ : Optimizer σ} (hhead : LoopHead b o lb ub o₁)
      (hwidth : 1 < ub - lb) (hturn : bisectTurn b lb ub o₁ = .ok (some (lb', ub')) o₂) :
      LoopHead b o lb' ub' o₂

/-- The invariant holds whenever another turn is about to be taken. -/
theorem LoopHead.bisecting (hb : b.Sound clauses) (hm : m.Formulable)
    (h : Prepared clauses m .empty [] .start o) {o' : Optimizer σ} (hhead : LoopHead b o lb ub o')
    (hroom : o'.Room) : ∃ os, Formulation.objectiveExprs m = .ok os ∧ m.softConstraints ≠ [] ∧
      Bisecting clauses m (Formulation.entityExprs m ++ os) lb ub o' := by
  induction hhead with
  | @enter o₁ o₂ o₃ o₄ s first hformulate hencode hbegin hobjective hsolution hfirst =>
    have hvalue : s.value Names.objective = first := by
      rw [Solution.value, hfirst]
      rfl
    obtain ⟨-, h₁⟩ := (runs_formulateAll hm h).of_eq_ok hformulate
    obtain ⟨os, hos⟩ := exists_of_imp h₁
    obtain ⟨hlater₂, h₂⟩ :=
      (runs_encode hb fun hroom => (hos hroom).2).of_eq_ok hencode
    obtain ⟨hlater₃, h₃⟩ := (runs_beginSearch h₂).of_eq_ok hbegin
    obtain ⟨hlater₄, h₄⟩ := (runs_firstSolution hb
      fun hroom => clear_of_stands (h₃ hroom).stands).of_eq_ok hsolution
    have hroom₃ : o₃.Room := hlater₄.room hroom
    have hroom₁ : o₁.Room := hlater₂.room (hlater₃.room hroom₃)
    rw [(h₃ hroom₃).formulation] at hobjective
    -- There is an objective only where something is soft.
    have hsoft := (Formulation.hasObjective_ofModel m).1 hobjective
    have hbegun := begun_of_asked hm (hos hroom₁).1 hsoft (h₃ hroom₃) ((h₄ hroom).1 s rfl)
    rw [← hvalue]
    exact ⟨os, (hos hroom₁).1, hsoft, hbegun.bisecting⟩
  | @turn lb ub lb' ub' o₁ o₂ hhead hwidth hturn ih =>
    obtain ⟨os, hos⟩ := exists_of_imp ih
    obtain ⟨hlater, h₂⟩ := (runs_bisectTurn hb
      (fun hroom => (hos hroom).2.2) hwidth).of_eq_ok hturn
    obtain ⟨hexprs, hsoft, -⟩ := hos (hlater.room hroom)
    exact ⟨os, hexprs, hsoft, ((h₂ hroom).halved lb' ub' rfl).1⟩

/-- The least cost lies in the interval, and the best solution has its upper end as objective. -/
theorem Bisecting.cost_mem (hm : m.Formulable) (hos : Formulation.objectiveExprs m = .ok os)
    (hsoft : m.softConstraints ≠ [])
    (h : Bisecting clauses m (Formulation.entityExprs m ++ os) lb ub o) :
    ∃ s value, o.best = some s ∧ s.get? Names.objective = some ub ∧ m.Cheapest value ∧
      lb < m.cost value ∧ m.cost value ≤ ub := by
  obtain ⟨s, hbest, hright, rfl⟩ := h.solution
  have hfeasible := Formulation.feasible_of_allHold hm hright.2.1
  obtain ⟨value, hcheapest⟩ := Model.exists_cheapest hfeasible
  refine ⟨s, value, hbest, hright.get? h.declared, hcheapest, ?_, ?_⟩
  · have hextended : m.extended value Names.objective = m.cost value :=
      Model.extended_name .objective trivial
    rw [← hextended]
    exact h.above _ (Formulation.allHold_extended_model hm hos hcheapest.1)
  · calc m.cost value ≤ m.cost s.value := hcheapest.2 s.value hfeasible
      _ ≤ s.value Names.objective := (Formulation.objective_bounds hm hos hright.2.1 hsoft).2.1

end Optimizer

namespace Strategy

open Optimizer

variable {σ : Type} {b : Backend σ} {clauses : σ → List Clause} {m : Model} {o : Optimizer σ}

theorem runs_binary {fair : Optimizer σ → Prop} (hb : b.Sound clauses) (hm : m.Formulable)
    (h : Prepared clauses m .empty [] .start o) (run : LocalSearch.Runner) :
    Runs fair (complete b run .binary) o fun r o' => ∃ os, Formulation.objectiveExprs m = .ok os ∧
      Halved m (Formulation.entityExprs m ++ os) o' ∧ o'.report b binary.name = .ok r :=
  runs_weightedSum hb hm h (fun _ _ hos h₁ => runs_searchBinary hb hm hos h₁) binary.name

/-- Some linear descent on some right backend reports an optimal assignment with this objective. -/
def LinearReports (m : Model) (objective : Option Int) : Prop :=
  ∃ (τ : Type) (b : Backend τ) (clauses : τ → List Clause) (s₀ : τ) (options : MethodOptions)
    (o o' : Optimizer τ) (run : LocalSearch.Runner) (r : Report),
    b.Sound clauses ∧ clauses s₀ = [] ∧ Optimizer.new b s₀ m options = .ok o ∧
    complete b run .linear o = .ok r o' ∧ o'.Room ∧ r.status = .optimal ∧ r.objective = objective

theorem LinearReports.cheapest (hm : m.Formulable) {objective : Option Int}
    (h : LinearReports m objective) :
    ∃ value, m.Cheapest value ∧ objective = some (m.cost value) := by
  obtain ⟨τ, b, clauses, s₀, options, o, o', run, r, hb, h₀, hnew, heq, hroom, hstatus,
    hobjective⟩ := h
  have hprepared := (prepared_new hb h₀ hnew).1
  obtain ⟨-, hend⟩ := (runs_linear hb hm hprepared run).of_eq_ok heq
  obtain ⟨os, hos, hsearched, hreport⟩ := hend hroom
  rw [(Report.new_status hreport).1] at hstatus
  obtain ⟨s, -, hcheapest, -, -, -, hcost⟩ := hsearched.report hm hos hstatus hreport
  exact ⟨s.value, hcheapest, hobjective.symm.trans hcost⟩

/-- **Bisection is exact.** Whenever another turn is about to be taken, the least cost lies in the
interval and the best solution has its upper end as objective.  An optimal report is on a cheapest
assignment, with the objective that linear descent reports.  Without an interruption every report is
optimal or says that nothing is feasible, after a number of questions that is logarithmic in the
objective of the first solution. -/
theorem binary_exact (hb : b.Sound clauses) {s₀ : σ} (h₀ : clauses s₀ = []) (hm : m.Built)
    (hnames : ∀ x ∈ m.vars, Names.isReserved x.name = false) {options : MethodOptions}
    (hnew : Optimizer.new b s₀ m options = .ok o) (run : LocalSearch.Runner) :
    (∀ lb ub o', LoopHead b o lb ub o' → o'.Room → ∃ s value,
      o'.best = some s ∧ s.get? Names.objective = some ub ∧ m.Cheapest value ∧
      lb < m.cost value ∧ m.cost value ≤ ub) ∧
    Ends (complete b run .binary o) fun r o' =>
      (r.status = .optimal → (∃ value,
        r.assignment = m.vars.map (fun x => (x.name, value x.name)) ∧ m.Cheapest value ∧
        r.hardViolations = 0 ∧ r.objective = some (m.cost value)) ∧
        ∀ objective, LinearReports m objective → r.objective = objective) ∧
      (r.status = .infeasible → ¬∃ value, m.Feasible value) ∧
      (o'.Uninterrupted → (r.status = .optimal ∨ r.status = .infeasible) ∧
        (m.softConstraints = [] ∨ r.status = .infeasible → r.solves ≤ 1) ∧
        (m.softConstraints ≠ [] → r.status = .optimal → ∃ s rest first,
          o'.questions = ⟨none, .sat s⟩ :: rest ∧ s.get? Names.objective = some first ∧
          r.solves ≤ 1 + Nat.clog 2 (first + 1).toNat)) := by
  obtain ⟨hprepared, hsupported⟩ := prepared_new hb h₀ hnew
  have hform := Model.formulable_of_built hm hnames hsupported
  refine ⟨fun lb ub o' hhead hroom => ?_,
    (runs_binary hb hform hprepared run).ends fun r o' h => ?_⟩
  · obtain ⟨os, hos, hsoft, hbisecting⟩ := hhead.bisecting hb hform hprepared hroom
    exact hbisecting.cost_mem hform hos hsoft
  · obtain ⟨os, hos, hhalved, hreport⟩ := h
    obtain ⟨hstatus, hsolves⟩ := Report.new_status hreport
    rw [hstatus, hsolves]
    refine ⟨fun hopt => ?_, fun hinf => (hhalved.refused hinf).2,
      fun hun => ⟨hhalved.decided hun, ?_, fun hsoft hopt => ?_⟩⟩
    · obtain ⟨s, -, hcheapest, -, hassignment, hhard, hobjective⟩ :=
        hhalved.report hform hos hopt hreport
      refine ⟨⟨s.value, hassignment, hcheapest, hhard, hobjective⟩, fun objective hlinear => ?_⟩
      obtain ⟨value, hvalue, rfl⟩ := hlinear.cheapest hform
      rw [hobjective, hcheapest.cost_eq hvalue]
    · rw [hhalved.solves hun]
      rintro (hsoft | hinf)
      · exact hhalved.once hsoft
      · exact hhalved.early (hhalved.infeasible hinf).1
    · rw [hhalved.solves hun]
      exact hhalved.few hopt hsoft

theorem binary_exact_forced : ∃ r o',
    complete .reference (fun _ => .killed) .binary forcedStart = .ok r o' ∧ o'.Room ∧
      o'.Uninterrupted ∧ r.status = .optimal ∧ r.solves = 2 ∧ r.objective = some 1 ∧
      ∃ value, Model.Sample.forced.Cheapest value ∧ Model.Sample.forced.cost value = 1 := by
  have hrun : digest (complete .reference (fun _ => .killed) .binary forcedStart) =
      some ⟨.optimal, some 1, [(1, 1)], 2, 15, true⟩ := by cbv
  obtain ⟨r, o', heq, hroom, hdigest⟩ := exists_run_of_digest hrun (by decide)
  have hexact := (binary_exact Backend.reference_sound rfl Model.Sample.built_forced (by decide)
    (show Optimizer.new .reference [] Model.Sample.forced {} = .ok forcedStart from rfl)
    fun _ => .killed).2
  rw [heq] at hexact
  have hstatus : r.status = .optimal := congrArg Digest.status hdigest
  have hobjective : r.objective = some 1 := congrArg Digest.objective hdigest
  obtain ⟨⟨value, -, hcheapest, -, hcost⟩, -⟩ := (hexact hroom).1 hstatus
  refine ⟨r, o', heq, hroom, uninterrupted_of_answered (congrArg Digest.answered hdigest), hstatus,
    congrArg Digest.solves hdigest, hobjective, value, hcheapest, ?_⟩
  rw [hobjective] at hcost
  exact (Option.some.inj hcost).symm

end Strategy

end WeightedCsp

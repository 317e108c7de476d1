import WeightedCsp.Method.Strategy
import WeightedCsp.Proofs.Formulation.Fresh
import WeightedCsp.Proofs.Method.Descent
import WeightedCsp.Proofs.Method.Ending
import WeightedCsp.Proofs.Method.Moves
import WeightedCsp.Proofs.Sat.Reference

/-!
# Minimizing tier by tier is lexicographic

The search goes through the prices from the highest to the lowest.  Its invariant (`Tiered`) is that
what is said fixes the totals of the prices that are done, and that these totals are the least ones
unless a descent was interrupted.

The first question of a later tier cannot be refused, and for this it does not matter whether the
fixed totals are the least ones: the best solution satisfies what was said so far, and it extends to
the names of the next tier, which are all new (`Tiered.satisfiable`).  A warm start is assumed for
one question only and leaves no trace: if it is refused, the question is asked again without it
(`runs_askTier`).
-/

namespace WeightedCsp

/-- The number of questions that the first tier may take before it has a solution. -/
def WarmStart.tries : Option WarmStart → Nat
  | none => 1
  | some _ => 2

namespace Optimizer

variable {σ β : Type} {b : Backend σ} {clauses : σ → List Clause} {m : Model} {o : Optimizer σ}
  {values : String → List Int} {names : List String} {exprs : List Expr}
  {fair : Optimizer σ → Prop}

/-! ### Adding a tier -/

/-- **Tiers.** The soft constraints of a price can be formulated with the sum of their penalties. -/
theorem runs_addTier (hm : m.Formulable) {prices : List Nat} {price : Nat} {name : String}
    (hprices : o.Room → (prices ++ [price]).Nodup)
    (h : o.Room → o.model = m ∧ o.formulation = .ofTiers m prices) :
    Runs fair (addTier name price) o fun ub o' => ∃ es, Formulation.TierExprs m name price es ∧
      ub = m.tierBound price ∧ Admits es (.ofTiers m (prices ++ [price])) o o' := by
  have hcons := fun hroom : o.Room => Formulation.addConstraints_tier hm (hprices hroom)
  refine runs_get_bind ?_
  refine (runs_addConstraints fun hroom => ?_).bind fun _ o₁ hlater h₁ => runs_get_bind ?_
  · rw [(h hroom).1, (h hroom).2]
    exact ⟨_, _, hcons hroom⟩
  -- No price comes up twice, so the members are formulated without an error.
  have h₁' : o₁.Room → Admits ((m.ofPrice price).flatMap Formulation.constraintExprs)
      (.ofTiers m (prices ++ [price])) o o₁ := by
    intro hroom
    obtain ⟨es, f, hes, hadmits⟩ := h₁ hroom
    have hroom₀ := hlater.room hroom
    rw [(h hroom₀).1, (h hroom₀).2] at hes
    cases hes.symm.trans (hcons hroom₀)
    exact hadmits
  -- Each member has its penalty now, so the sum can fail by an overflow only.
  have hpenalty : o₁.Room → ∀ c ∈ tierMembers o.model price,
      o₁.formulation.penalty c.name = .ok (Formulation.penaltyFor c) := by
    intro hroom c hc
    rw [(h (hlater.room hroom)).1] at hc
    rw [h₁' hroom]
    exact Formulation.penalty_ofTiers hm.toWellFormed (hprices (hlater.room hroom))
      (List.mem_flatMap.2 ⟨price, by simp, hc⟩)
  refine runs_formulating_bind (Formulation.tame_aggregate _ _ _) (fun hroom e he => ?_)
    fun r hr => ?_
  · rw [Formulation.aggregate_eq (hpenalty hroom)] at he
    split at he
    · cases he
    · cases he
  · refine runs_queue_bind (runs_pure fun hroom => ?_)
    rw [Formulation.aggregate_eq (hpenalty hroom)] at hr
    split at hr
    · next r' hsum =>
      cases hr
      obtain ⟨hdefined, hbound⟩ := Formulation.sumOf_eq_ok hsum
      have hmodel := (h (hlater.room hroom)).1
      rw [hmodel] at hdefined hbound
      refine ⟨_, ⟨r.1, hdefined, rfl⟩, hbound, ?_⟩
      rw [h₁' hroom, Admits, Session.addExprs_addExprs]
    · cases hr

/-! ### Answers -/

/-- What came of at most `limit` questions about the expressions, of which the last one decides. -/
structure Answered (clauses : σ → List Clause) (values : String → List Int) (names : List String)
    (exprs : List Expr) (limit : Nat) (o : Optimizer σ) (outcome : Outcome) (o' : Optimizer σ) :
    Prop where
  /-- Nothing but the session and the account of questions changes. -/
  frame : o' = { o with
    session := o'.session, solves := o'.solves, questions := o'.questions }
  /-- The session stands for the same expressions. -/
  stands : ∃ left, o'.session.Stands clauses values names exprs left ∧
    (outcome ≠ .interrupted → left = [])
  /-- A solution satisfies the expressions. -/
  sat : ∀ s, outcome = .sat s → Outcome.RightFor exprs [] (.sat s)
  /-- A refusal is final. -/
  unsat : outcome = .unsat → ¬∃ value, Expr.AllHold value exprs
  /-- The questions are few, and only the last one may be interrupted. -/
  questions : ∃ qs, o'.questions = o.questions ++ qs ∧ qs.length ≤ limit ∧
    (outcome = .interrupted ↔ ∃ q ∈ qs, q.outcome = .interrupted)

/-- One question is enough, unless something else was assumed and it was refused. -/
theorem Asked.answered {given : List Assumption} {bound : Option Int} {outcome : Outcome}
    {o' : Optimizer σ} {limit : Nat}
    (h : Asked b clauses values names exprs given bound o outcome o')
    (hgiven : outcome = .unsat → given = []) (hlimit : 1 ≤ limit) :
    Answered clauses values names exprs limit o outcome o' := by
  obtain ⟨left, hleft, hused⟩ := h.stands
  have hframe := h.frame
  refine ⟨?_, ⟨left, hleft, fun hne => (hused hne).1⟩, fun s hs => ?_, fun hun => ?_,
    [⟨bound, outcome⟩], ?_, hlimit, by simp⟩
  · rw [hframe]
  · subst hs
    exact ⟨h.right.1, h.right.2.1, by simp⟩
  · subst hun
    rw [hgiven rfl] at h
    rintro ⟨value, hvalue⟩
    exact h.right ⟨value, hvalue, by simp⟩
  · rw [hframe]

theorem runs_assumePins (hb : b.Sound clauses) {pins : List (String × Int)}
    {given : List Assumption} (hs : o.Room → o.session.Stands clauses values names exprs given)
    (hpins : o.Room → ∀ p ∈ pins, p.1 ∈ names) :
    Runs fair (assumePins b pins) o fun _ o' => o' = { o with session := o'.session } ∧
      o'.session.Stands clauses values names exprs
        (given ++ pins.map fun p => ⟨p.1, .eq, p.2⟩) := by
  induction pins generalizing o given with
  | nil =>
    refine runs_pure fun hroom => ⟨rfl, ?_⟩
    rw [List.map_nil, List.append_nil]
    exact hs hroom
  | cons p pins ih =>
    -- Each pin is assumed beside those before it, so `given` grows along the list.
    refine (runs_assume hb hs (fun hroom => hpins hroom p List.mem_cons_self) .eq p.2).bind
      fun _ o₁ hlater h₁ => ?_
    refine (ih (fun hroom => (h₁ hroom).2) fun hroom q hq => ?_).mono
      fun _ o₂ hlater₂ hroom h₂ => ?_
    · exact hpins (hlater.room hroom) q (List.mem_cons_of_mem _ hq)
    · obtain ⟨hframe, hstands⟩ := h₂
      refine ⟨?_, ?_⟩
      · rw [hframe, (h₁ (hlater₂.room hroom)).1]
      · rw [List.map_cons, List.append_cons]
        exact hstands

/-- **Warm starts.** What is assumed for the first question has no bearing on the outcome. -/
theorem runs_askTier (hb : b.Sound clauses)
    (hs : o.Room → Clear b clauses values names exprs o) {name : String}
    (hname : o.Room → name ∈ names) {warm : Option WarmStart}
    (hwarm : o.Room → ∀ w ∈ warm, ∀ p ∈ w.pins, p.1 ∈ names) :
    Runs fair (askTier b name warm) o
      (Answered clauses values names exprs (WarmStart.tries warm) o) := by
  cases warm with
  | none =>
    exact (runs_ask_clear hb hs none).mono
      fun _ _ _ _ h => h.answered (fun _ => rfl) (Nat.le_refl 1)
  | some warm =>
    obtain ⟨left, hleft⟩ := exists_of_imp hs
    have hpins : o.Room → ∀ p ∈ warm.pins, p.1 ∈ names := fun hroom => hwarm hroom warm rfl
    refine (runs_assumePins hb (fun hroom => (hleft hroom).1) hpins).bind fun _ o₁ hlater₁ h₁ => ?_
    refine (runs_assume hb (fun hroom => (h₁ hroom).2) (fun hroom => hname (hlater₁.room hroom)) .le
      warm.heavyBound).bind fun _ o₂ hlater₂ h₂ => ?_
    have hframe₂ : o₂.Room → o₂ = { o with session := o₂.session } := by
      intro hroom
      rw [(h₂ hroom).1, (h₁ (hlater₂.room hroom)).1]
    refine (runs_ask hb (fun hroom => (h₂ hroom).2) none).bind fun outcome o₃ hlater₃ h₃ => ?_
    have hasked := fun hroom : o₃.Room => (h₃ hroom).of_session (hframe₂ (hlater₃.room hroom))
    cases outcome with
    -- A solution under assumptions is also one without them.
    | sat s =>
      exact runs_pure fun hroom => (hasked hroom).answered (fun hun => by cases hun) (Nat.le_succ 1)
    | interrupted =>
      exact runs_pure fun hroom => (hasked hroom).answered (fun hun => by cases hun) (Nat.le_succ 1)
    | unsat =>
      -- The refused question has used up all assumptions, so the second one is without any.
      have hstands : o₃.Room → o₃.session.Stands clauses values names exprs [] := by
        intro hroom
        obtain ⟨left, hleft, hused⟩ := (hasked hroom).stands
        obtain ⟨rfl, -⟩ := hused (by simp)
        exact hleft
      refine (runs_ask hb hstands none).mono fun outcome o₄ hlater₄ hroom h₄ => ?_
      have hagain : Answered clauses values names exprs 1 o₃ outcome o₄ :=
        h₄.answered (fun _ => rfl) (Nat.le_refl 1)
      obtain ⟨qs, hqs, hlength, hint⟩ := hagain.questions
      have hframe₃ := (hasked (hlater₄.room hroom)).frame
      refine ⟨?_, hagain.stands, hagain.sat, hagain.unsat, ⟨none, .unsat⟩ :: qs, ?_,
        Nat.succ_le_succ hlength, ?_⟩
      · rw [hagain.frame, hframe₃]
      · rw [hqs, hframe₃]
        simp
      · rw [hint]
        simp

theorem Answered.noted {limit : Nat} {outcome : Outcome} {o' : Optimizer σ}
    (h : Answered clauses values names exprs limit o outcome o') (hne : outcome ≠ .interrupted)
    (hnoted : o.Noted) : o'.Noted := by
  obtain ⟨qs, hqs, -, hint⟩ := h.questions
  have hcut : false = true ↔ ∃ q ∈ qs, q.outcome = .interrupted := by
    rw [← hint]
    simpa using hne
  refine hnoted.of_questions ?_ hqs hcut
  rw [h.frame, Bool.or_false]

theorem Answered.descending {limit : Nat} {s : Solution} {o' : Optimizer σ}
    (h : Answered clauses values names exprs limit o (.sat s) o') {name : String}
    (hname : name ∈ names) (hnonneg : ∀ value, Expr.AllHold value exprs → 0 ≤ value name) :
    Descending clauses values names exprs name (s.value name) { o' with best := some s } := by
  obtain ⟨left, hleft, hnone⟩ := h.stands
  obtain rfl := hnone (by simp)
  exact ⟨hleft, hname, hnonneg, s, rfl, h.sat s rfl, rfl⟩

/-! ### The invariant -/

open Formulation (Bounded Least TierExprs Speaks)

/-- The tiers of `prices` are formulated, and the totals of some of them are fixed. -/
structure Tiered (b : Backend σ) (clauses : σ → List Clause) (m : Model) (prices : List Nat)
    (fixed : List (Nat × Int)) (exprs : List Expr) (o : Optimizer σ) : Prop where
  /-- The model. -/
  model : o.model = m
  /-- What of the model is formulated. -/
  formulation : o.formulation = .ofTiers m prices
  /-- The session stands for the expressions. -/
  clear : Clear b clauses m.valuesOf (Expr.declaredBy exprs) exprs o
  /-- What is said is about the model and the prices. -/
  speaks : Speaks m prices exprs
  /-- Interruptions are noted. -/
  noted : o.Noted
  /-- What is said fixes the totals. -/
  bounded : Bounded m fixed exprs
  /-- Without an interruption the fixed totals are the least ones. -/
  least : o.timedOut = false → Least m fixed
  /-- Nothing was asked before a total is fixed. -/
  start : fixed = [] → o.best = none ∧ o.questions = []
  /-- The best solution can be shown. -/
  presentable : ∀ s, o.best = some s → s.Presentable m

/-- The best solution satisfies the expressions. -/
def HasBest (exprs : List Expr) (o : Optimizer σ) : Prop :=
  ∃ s, o.best = some s ∧ Outcome.RightFor exprs [] (.sat s)

theorem tiered_of_prepared (hm : m.Formulable) {phase : Phase}
    (h : Prepared clauses m ⟨m.vars, m.hardConstraints, []⟩
      (Formulation.sayings m m.hardConstraints) phase o) :
    Tiered b clauses m [] [] (Formulation.sayings m m.hardConstraints) o := by
  obtain ⟨hquestions, -, hbest, htimedOut⟩ := h.asked
  refine ⟨h.model, ?_, clear_of_stands h.stands, Formulation.speaks_hard hm, ?_,
    Formulation.bounded_hard hm, fun _ => Formulation.least_nil m, fun _ => ⟨hbest, hquestions⟩,
    fun s hs => ?_⟩
  · rw [h.formulation]
    simp [Formulation.ofTiers]
  · simp [Noted, Uninterrupted, htimedOut, hquestions]
  · cases hbest.symm.trans hs

section Tier

variable {prices : List Nat} {fixed : List (Nat × Int)} {price : Nat} {es : List Expr}
  {a : Names.Aux} {limit : Nat} {outcome : Outcome} {o' : Optimizer σ}

theorem presentable_of_bounded (hbounded : Bounded m fixed exprs) (hspeaks : Speaks m prices exprs)
    {s : Solution} (h : Outcome.RightFor exprs [] (.sat s)) : s.Presentable m :=
  h.presentable (fun x hx => (hspeaks.introduced x hx).1)
    fun value hall => (hbounded.feasible value hall).1

theorem Tiered.addTier (hm : m.Formulable) (h : Tiered b clauses m prices fixed exprs o)
    (ha : m.Sums a price) (hes : TierExprs m a.name price es)
    (hadmits : Admits es (.ofTiers m (prices ++ [price])) o o') :
    Tiered b clauses m (prices ++ [price]) fixed (exprs ++ es) o' ∧
      a.name ∈ Expr.declaredBy (exprs ++ es) := by
  obtain rfl := hadmits
  obtain ⟨haccepts, hdeclared⟩ := hes.accepts hm a ha.valid ha.greatest h.speaks.introduced
  refine ⟨⟨h.model, rfl, ?_, h.speaks.tier hm ha hes, h.noted, ?_, h.least, h.start,
    h.presentable⟩, ?_⟩
  · rw [Expr.declaredBy_append]
    exact h.clear.addExprs haccepts
  · exact h.bounded.append fun value hfeasible =>
      hes.allHold_extended hm hfeasible (ha.extended value)
  · rw [Expr.declaredBy_append]
    exact List.mem_append_right _ hdeclared

/-- A solution of the tiers so far extends to the next tier, whatever the fixed totals are. -/
theorem Tiered.satisfiable (hm : m.Formulable) (h : Tiered b clauses m prices fixed exprs o)
    (hbest : HasBest exprs o) (ha : m.Sums a price) (hes : TierExprs m a.name price es)
    (hprice : price ∉ prices) : ∃ value, Expr.AllHold value (exprs ++ es) := by
  obtain ⟨s, -, hright⟩ := hbest
  obtain ⟨hfeasible, hvars⟩ := h.bounded.feasible _ hright.2.1
  refine h.speaks.exists_allHold_append hm hvars hright.2.1 ?_ (fun name hname => ?_) ?_
  · exact (hes.accepts hm a ha.valid ha.greatest (Model.Formulable.introduced_variableExprs m)).1
  · have hof := Formulation.declaredBy_tierExprs hm ha hes name hname
    exact h.speaks.notMem_of_ofPrice hm hprice hof
  · exact hes.allHold_extended hm hfeasible (ha.extended s.value)

/-- The state after a tier was improved. -/
theorem Tiered.improved {op : Comparator} (hop : op.Caps) {o₁ o₂ : Optimizer σ} {s : Solution}
    {d : Descent} {ks : List Int} (h : Tiered b clauses m prices fixed exprs o)
    (ha : m.Sums a price)
    (htotal : ∀ value, Expr.AllHold value exprs → m.tierTotal value price ≤ value a.name)
    (hname : a.name ∈ Expr.declaredBy exprs)
    (hanswer : Answered clauses m.valuesOf (Expr.declaredBy exprs) exprs limit o (.sat s) o₁)
    (himproved : Improved b clauses m.valuesOf (Expr.declaredBy exprs) exprs a.name op o₁ d ks o₂) :
    Tiered b clauses m prices (fixed ++ [(price, d.value)])
        (exprs ++ Expr.capped a.name op ks d.value) o₂ ∧
      HasBest (exprs ++ Expr.capped a.name op ks d.value) o₂ := by
  obtain ⟨t, hbest, hright⟩ := himproved.solution
  have hspeaks := h.speaks.capped hname op ks d.value
  have hbounded := h.bounded.fix htotal ha.extended hop himproved.le
  have hkept : o₂.model = o.model ∧ o₂.formulation = o.formulation := by
    rw [himproved.kept.1, himproved.kept.2, hanswer.frame]
    exact ⟨rfl, rfl⟩
  refine ⟨⟨hkept.1.trans h.model, hkept.2.trans h.formulation, ?_, hspeaks,
    himproved.noted (hanswer.noted (by simp) h.noted), hbounded, fun htime => ?_, by simp,
    fun u hu => ?_⟩, t, hbest, hright⟩
  · rw [Expr.declaredBy_append_of_none Expr.declares?_capped]
    exact himproved.clear
  · -- No interruption is noted, so neither this descent nor an earlier one was interrupted.
    rw [himproved.timedOut, Bool.or_eq_false_iff, hanswer.frame] at htime
    exact (h.least htime.1).append h.bounded ha.extended (himproved.least htime.2)
  · cases hbest.symm.trans hu
    exact presentable_of_bounded hbounded hspeaks hright

/-! ### Ends -/

/-- A refusal before a total is fixed means that nothing is feasible. -/
theorem Tiered.ended_of_unsat (h : Tiered b clauses m prices [] exprs o)
    (hanswer : Answered clauses values names exprs limit o .unsat o') (took : Option Nat) :
    Ended m limit { o' with phase := .infeasible, took := took } := by
  obtain ⟨hbest, hquestions⟩ := h.start rfl
  obtain ⟨qs, hqs, hlength, hint⟩ := hanswer.questions
  rw [hquestions, List.nil_append] at hqs
  have hnone : o'.best = none := by
    rw [hanswer.frame]
    exact hbest
  -- No question of an answer that is a refusal was interrupted.
  have hun : o'.Uninterrupted := by
    unfold Uninterrupted
    rw [hqs]
    intro q hq hq'
    cases hint.2 ⟨q, hq, hq'⟩
  refine ⟨?_, fun _ => .inr rfl, fun hint => absurd hun hint, fun hopt => (by cases hopt),
    fun _ => ⟨hnone, ?_⟩, fun _ => ?_, fun s hs => ?_⟩
  · rw [hanswer.frame]
    exact h.model
  · rintro ⟨value, hvalue⟩
    exact hanswer.unsat rfl ⟨_, h.bounded.complete value hvalue (by simp)⟩
  · show o'.questions.length ≤ limit
    rwa [hqs]
  · cases hnone.symm.trans hs

/-- An interruption ends the search with the solution so far. -/
theorem Tiered.ended_of_interrupted {firsts : Nat} (h : Tiered b clauses m prices fixed exprs o)
    (hanswer : Answered clauses values names exprs limit o .interrupted o')
    (hlimit : fixed = [] → limit ≤ firsts) (hbest : fixed ≠ [] → o.best ≠ none)
    (took : Option Nat) : Ended m firsts { o' with phase := .timeout, took := took } := by
  obtain ⟨qs, hqs, hlength, hint⟩ := hanswer.questions
  obtain ⟨q, hq, hcut⟩ := hint.1 rfl
  have hnot : ¬o'.Uninterrupted := by
    intro hun
    refine hun q ?_ hcut
    rw [hqs]
    exact List.mem_append_right _ hq
  have hsame : o'.best = o.best := by rw [hanswer.frame]
  refine ⟨?_, fun hun => absurd hun hnot, fun _ => rfl, fun hopt => (by cases hopt),
    fun hinf => (by cases hinf), fun hnone => ?_, fun s hs => ?_⟩
  · rw [hanswer.frame]
    exact h.model
  · -- Without a solution no total is fixed, so these were the first questions.
    have hnil : fixed = [] := by
      by_contra hne
      exact hbest hne (hsame.symm.trans hnone)
    show o'.questions.length ≤ firsts
    rw [hqs, (h.start hnil).2, List.nil_append]
    exact hlength.trans (hlimit hnil)
  · exact h.presentable s (hsame.symm.trans hs)

/-- The end of a search all of whose descents are done. -/
theorem runs_finishDescents (firsts : Nat) {s : Solution}
    (h : o.Room → o.model = m ∧ o.Noted ∧ o.best = some s ∧ s.Presentable m) :
    Runs fair (finishDescents b) o fun _ o' => Ended m firsts o' ∧ o'.best = some s ∧
      (o'.phase = .optimal → o.timedOut = false) := by
  refine runs_get_bind (runs_enter fun took hroom => ?_)
  obtain ⟨hmodel, hnoted, hbest, hs⟩ := h hroom
  have hsome : o.best ≠ none := by
    rw [hbest]
    exact Option.some_ne_none s
  -- Every interruption of a descent is noted, so the note decides the phase.
  cases htime : o.timedOut with
  | true =>
    have hint := hnoted.1 htime
    exact ⟨⟨hmodel, fun hun => absurd hun hint, fun _ => rfl, fun hopt => (by cases hopt),
      fun hinf => (by cases hinf), fun hnone => absurd hnone hsome,
      fun t ht => Option.some.inj (hbest.symm.trans ht) ▸ hs⟩, hbest, fun hopt => by cases hopt⟩
  | false =>
    have hun : o.Uninterrupted := by
      by_contra hint
      rw [hnoted.2 hint] at htime
      cases htime
    exact ⟨⟨hmodel, fun _ => .inl rfl, fun hint => absurd hun hint, fun _ => hsome,
      fun hinf => (by cases hinf), fun hnone => absurd hnone hsome,
      fun t ht => Option.some.inj (hbest.symm.trans ht) ▸ hs⟩, hbest, fun _ => rfl⟩

/-! ### The search -/

/-- What a search tier by tier comes to. -/
structure TiersSearched (m : Model) (firsts : Nat) (o : Optimizer σ) : Prop extends
    Ended m firsts o where
  /-- The best solution has the least totals. -/
  foremost : o.phase = .optimal → ∃ s, o.best = some s ∧ m.Foremost s.value

/-- All totals are fixed. -/
theorem Tiered.foremost (h : Tiered b clauses m prices fixed exprs o)
    (hprices : fixed.map (·.1) = m.tiers.map (·.price)) (htime : o.timedOut = false)
    {s : Solution} (hright : Outcome.RightFor exprs [] (.sat s)) : m.Foremost s.value := by
  have hleast := h.least htime
  have htotals := h.bounded.totals_eq hleast hright.2.1
  have hown : m.totals s.value = fixed.map (·.2) := by
    rw [Model.totals, ← hprices, List.map_map]
    exact List.map_congr_left htotals
  refine ⟨(h.bounded.feasible _ hright.2.1).1, fun other hother => ?_⟩
  rw [hown, Model.totals, ← hprices, List.map_map]
  exact hleast other hother

end Tier

/-- The next price was not formulated before. -/
theorem next_price {done rest : List Nat} {price : Nat}
    (h : done ++ price :: rest = m.tiers.map (·.price)) :
    (done ++ [price]).Nodup ∧ price ∉ done := by
  have hall := m.nodup_tiers
  rw [← h, List.append_cons] at hall
  have hnodup : (done ++ [price]).Nodup := (List.nodup_append.1 hall).1
  exact ⟨hnodup, fun hmem => (List.nodup_append.1 hnodup).2.2 price hmem price (by simp) rfl⟩

/-- A warm start pins variables of the model only. -/
def Pins (m : Model) (warm : Option WarmStart) : Prop :=
  ∀ w ∈ warm, ∀ p ∈ w.pins, ∃ x ∈ m.vars, x.name = p.1

/-- After the questions of a tier.  A refusal means that nothing is feasible, and it is out of the
question once a total is fixed; a solution is improved, and what that comes to is fixed. -/
theorem runs_afterTier (hb : b.Sound clauses) {first : Bool} {price : Nat} {prices rest : List Nat}
    {fixed : List (Nat × Int)} {limit firsts : Nat} {outcome : Outcome} {o₀ : Optimizer σ}
    (hfirst : first = true ↔ fixed = []) (hfirsts : fixed = [] → limit = firsts)
    (htier : o.Room → Tiered b clauses m prices fixed exprs o₀)
    (hname : o.Room → Names.tier price ∈ Expr.declaredBy exprs)
    (htotal : o.Room → ∀ value, Expr.AllHold value exprs →
      m.tierTotal value price ≤ value (Names.tier price) ∧ 0 ≤ value (Names.tier price))
    (hbest : o.Room → fixed ≠ [] → o₀.best ≠ none ∧ ∃ value, Expr.AllHold value exprs)
    (hanswer : o.Room →
      Answered clauses m.valuesOf (Expr.declaredBy exprs) exprs limit o₀ outcome o)
    (hrest : ∀ v exprs' o', Later o o' → (o'.Room →
      Tiered b clauses m prices (fixed ++ [(price, v)]) exprs' o' ∧ HasBest exprs' o') →
      Runs fair (minimizeTiers b false none rest) o' fun _ o'' => TiersSearched m firsts o'') :
    Runs fair (afterTier b first price rest outcome) o fun _ o' => TiersSearched m firsts o' := by
  cases outcome with
  | unsat =>
    show Runs fair (if first then enter b .infeasible else Step.fail (.stuckTier price)) o _
    by_cases hone : first = true
    · simp only [hone, ↓reduceIte]
      -- Nothing is fixed yet, so this refuses the hard constraints alone.
      obtain rfl := hfirst.1 hone
      rw [← hfirsts rfl]
      refine runs_enter fun took hroom => ⟨?_, fun hopt => by cases hopt⟩
      exact (htier hroom).ended_of_unsat (hanswer hroom) took
    · simp only [hone, Bool.false_eq_true, ↓reduceIte]
      -- The best solution so far extends to this tier, so it cannot be refused.
      refine runs_fail fun hroom _ => ?_
      have hsat := (hbest hroom fun hnil => hone (hfirst.2 hnil)).2
      exact absurd hsat ((hanswer hroom).unsat rfl)
  | interrupted =>
    refine runs_enter fun took hroom => ⟨?_, fun hopt => by cases hopt⟩
    exact (htier hroom).ended_of_interrupted (hanswer hroom) (fun hnil => (hfirsts hnil).le)
      (fun hne => (hbest hroom hne).1) took
  | sat s =>
    have hdescending := fun hroom : o.Room =>
      (hanswer hroom).descending (hname hroom) fun value hall => (htotal hroom value hall).2
    refine runs_improve (k := fun _ => minimizeTiers b false none rest) hb Comparator.caps_eq
      hdescending fun d o₁ hlater h₁ => ?_
    obtain ⟨ks, hks⟩ := exists_of_imp h₁
    have himproved := fun hroom : o₁.Room =>
      have hroom₀ := hlater.room hroom
      (htier hroom₀).improved Comparator.caps_eq (m.sums_tier price)
        (fun value hall => (htotal hroom₀ value hall).1) (hname hroom₀) (hanswer hroom₀) (hks hroom)
    exact hrest d.value _ o₁ hlater himproved

/-- **Tier by tier.** From totals that are the least so far, the search comes to the least totals of
all prices, unless it is interrupted. -/
theorem runs_minimizeTiers (hb : b.Sound clauses) (hm : m.Formulable) {first : Bool}
    {warm : Option WarmStart} {rest : List Nat} {fixed : List (Nat × Int)} {firsts : Nat}
    (hprices : o.Room → fixed.map (·.1) ++ rest = m.tiers.map (·.price))
    (hwork : rest = [] → fixed ≠ []) (hfirst : first = true ↔ fixed = [])
    (hfirsts : fixed = [] → WarmStart.tries warm = firsts) (hwarm : o.Room → Pins m warm)
    (h : o.Room → Tiered b clauses m (fixed.map (·.1)) fixed exprs o)
    (hbest : o.Room → fixed ≠ [] → HasBest exprs o) :
    Runs fair (minimizeTiers b first warm rest) o fun _ o' => TiersSearched m firsts o' := by
  -- The induction is on the prices that are left; the fixed totals and what is said grow along.
  induction rest generalizing first warm fixed exprs o with
  | nil =>
    simp only [List.append_nil] at hprices
    obtain ⟨s, hs⟩ := exists_of_imp fun hroom => hbest hroom (hwork rfl)
    have hdone : o.Room → o.model = m ∧ o.Noted ∧ o.best = some s ∧ s.Presentable m := fun hroom =>
      ⟨(h hroom).model, (h hroom).noted, (hs hroom).1, (h hroom).presentable s (hs hroom).1⟩
    refine (runs_finishDescents firsts hdone).mono fun _ o' hlater hroom hend => ?_
    obtain ⟨hended, hsame, htime⟩ := hend
    have hroom₀ := hlater.room hroom
    refine ⟨hended, fun hopt => ⟨s, hsame, ?_⟩⟩
    exact (h hroom₀).foremost (hprices hroom₀) (htime hopt) (hs hroom₀).2
  | cons price rest ih =>
    have ha := m.sums_tier price
    have hnew := fun hroom : o.Room => next_price (hprices hroom)
    rw [minimizeTiers_cons]
    refine (runs_addTier hm (fun hroom => (hnew hroom).1)
      fun hroom => ⟨(h hroom).model, (h hroom).formulation⟩).bind fun _ o₁ hlater₁ h₁ => ?_
    obtain ⟨es, hes⟩ := exists_of_imp h₁
    have htier := fun hroom : o₁.Room =>
      (h (hlater₁.room hroom)).addTier hm ha (hes hroom).1 (hes hroom).2.2
    have hpins : o₁.Room → ∀ w ∈ warm, ∀ p ∈ w.pins, p.1 ∈ Expr.declaredBy (exprs ++ es) := by
      intro hroom w hw p hp
      obtain ⟨x, hx, hname⟩ := hwarm (hlater₁.room hroom) w hw p hp
      rw [← hname]
      exact ((htier hroom).1.speaks.introduced x hx).1
    refine (runs_askTier hb (fun hroom => (htier hroom).1.clear) (fun hroom => (htier hroom).2)
      hpins).bind fun outcome o₂ hlater₂ h₂ => ?_
    refine runs_afterTier hb hfirst hfirsts (fun hroom => (htier (hlater₂.room hroom)).1)
      (fun hroom => (htier (hlater₂.room hroom)).2) (fun hroom value hall => ?_)
      (fun hroom hne => ?_) h₂ fun v exprs' o₃ hlater₃ h₃ => ?_
    · have hroom₁ := hlater₂.room hroom
      exact (h (hlater₁.room hroom₁)).bounded.total_le hm (hes hroom₁).1 hall
    · have hroom₁ := hlater₂.room hroom
      have hroom₀ := hlater₁.room hroom₁
      have hsome := hbest hroom₀ hne
      refine ⟨?_, (h hroom₀).satisfiable hm hsome ha (hes hroom₁).1 (hnew hroom₀).2⟩
      obtain ⟨s, hs, -⟩ := hsome
      rw [(hes hroom₁).2.2]
      exact fun hnone => by cases hs.symm.trans hnone
    · -- From here on there is no warm start, and the price is one of those that are done.
      have hprices' : o₃.Room →
          (fixed ++ [(price, v)]).map (·.1) ++ rest = m.tiers.map (·.price) := by
        intro hroom
        rw [← hprices (hlater₁.room (hlater₂.room (hlater₃.room hroom)))]
        simp
      refine ih hprices' (by simp) (by simp) (by simp) (by simp [Pins]) (fun hroom => ?_)
        fun hroom _ => (h₃ hroom).2
      rw [List.map_append]
      exact (h₃ hroom).1

/-- A model in which nothing is soft. -/
theorem runs_anySolution_hard (hb : b.Sound clauses) (hm : m.Formulable) {phase : Phase}
    (h : o.Room → Prepared clauses m ⟨m.vars, m.hardConstraints, []⟩
      (Formulation.sayings m m.hardConstraints) phase o) :
    Runs fair (anySolution b) o fun _ o' => Ended m 1 o' := by
  have hbounded := Formulation.bounded_hard hm
  refine (runs_anySolution hb fun hroom => clear_of_stands (h hroom).stands).mono
    fun _ o' hlater hroom h' => ?_
  have hprepared := h (hlater.room hroom)
  rcases h' with ⟨s, hfound⟩ | hun
  · have hs := presentable_of_bounded hbounded (Formulation.speaks_hard hm) hfound.right
    exact ended_of_found hprepared hfound hs
  · exact ended_of_unsolved hprepared hun fun value hvalue =>
      hbounded.complete value hvalue (by simp)

theorem runs_optimizeTiers (hb : b.Sound clauses) (hm : m.Formulable) {warm : Option WarmStart}
    (hwarm : o.Room → Pins m warm) {phase : Phase}
    (h : o.Room → Prepared clauses m ⟨m.vars, m.hardConstraints, []⟩
      (Formulation.sayings m m.hardConstraints) phase o) :
    Runs fair (optimizeTiers b warm) o fun _ o' => TiersSearched m (WarmStart.tries warm) o' := by
  refine runs_get_bind ?_
  cases hprices : o.model.tiers.map (·.price) with
  | nil =>
    refine (runs_anySolution_hard hb hm h).mono fun _ o' hlater hroom hended => ?_
    have hone : 1 ≤ WarmStart.tries warm := by cases warm <;> simp [WarmStart.tries]
    refine ⟨hended.mono hone, fun hopt => ?_⟩
    obtain ⟨s, hs⟩ := Option.ne_none_iff_exists'.1 (hended.found hopt)
    refine ⟨s, hs, (hended.presentable s hs).feasible, fun other _ => ?_⟩
    -- Without tiers there is nothing to compare.
    rw [(h (hlater.room hroom)).model] at hprices
    rw [Model.totals, Model.totals, hprices]
    exact le_rfl
  | cons price rest =>
    have htiers : o.Room →
        ([] : List (Nat × Int)).map (·.1) ++ price :: rest = m.tiers.map (·.price) := by
      intro hroom
      rw [← (h hroom).model, hprices]
      rfl
    exact runs_minimizeTiers hb hm htiers (by simp) (by simp) (fun _ => rfl) hwarm
      (fun hroom => tiered_of_prepared hm (h hroom)) (by simp)

/-! ### Warm starts from a log -/

theorem pins_pinsOf {log : SolverLog} {xs : List Variable} {pins : List (String × Int)}
    (h : WarmStart.pinsOf log xs = .ok pins) : ∀ p ∈ pins, ∃ x ∈ xs, x.name = p.1 := by
  induction xs generalizing pins with
  | nil =>
    cases h
    simp
  | cons x xs ih =>
    rw [WarmStart.pinsOf] at h
    have hlift : ∀ {rest}, WarmStart.pinsOf log xs = .ok rest →
        ∀ p ∈ rest, ∃ y ∈ x :: xs, y.name = p.1 := by
      intro rest hrest p hp
      obtain ⟨y, hy, hname⟩ := ih hrest p hp
      exact ⟨y, List.mem_cons_of_mem _ hy, hname⟩
    split at h
    · exact hlift h
    · split at h
      · cases h
      · obtain ⟨rest, hrest, h₁⟩ := Checked.bind_eq_ok.1 h
        cases h₁
        exact List.forall_mem_cons.2 ⟨⟨x, List.mem_cons_self, rfl⟩, hlift hrest⟩

theorem pins_ofLog {log : SolverLog} {warm : Option WarmStart}
    (h : WarmStart.ofLog m log = .ok warm) : Pins m warm := by
  unfold WarmStart.ofLog at h
  split_ifs at h
  · cases h
    simp [Pins]
  · split at h
    · cases h
      simp [Pins]
    · obtain ⟨bound, -, h₁⟩ := Checked.bind_eq_ok.1 h
      obtain ⟨pins, hpins, h₂⟩ := Checked.bind_eq_ok.1 h₁
      cases h₂
      intro w hw
      cases hw
      exact pins_pinsOf (Failure.ofExcept_eq_ok.1 hpins)

/-- Where the places of constraints are right, looking one up does not fault. -/
theorem tame_ofLog (hm : m.Indexed) (log : SolverLog) :
    Failure.Tame (fun _ => True) (WarmStart.ofLog m log) := by
  refine WarmStart.tame_ofLog (fun name => ?_) log
  rw [hm.lookupConstraint_eq]
  exact Checked.tame_ok _

/-- The local search for a warm start leaves the optimizer as it is; it may fail in its own ways. -/
theorem runs_localLog (run : LocalSearch.Runner) :
    Runs (fun _ => False) (localLog run) o fun _ o' => o' = { o with asked := o'.asked } := by
  refine runs_get_bind ?_
  refine runs_except_bind o.tame_warmStartRequest (fun q _ => ?_) fun _ _ _ hfair => hfair.elim
  refine runs_modify_bind ⟨Nat.le_refl _, List.prefix_refl _, rfl⟩ ?_
  split
  · exact runs_pure fun _ => rfl
  · exact runs_fail fun _ hfair => hfair.elim

theorem runs_searchHybrid (hb : b.Sound clauses) (hm : m.Formulable) (run : LocalSearch.Runner)
    (hmodel : o.model = m) (h : o.Room → Prepared clauses m ⟨m.vars, m.hardConstraints, []⟩
      (Formulation.sayings m m.hardConstraints) .encoded o) :
    Runs (fun _ => False) (searchHybrid b run) o fun _ o' => TiersSearched m 2 o' := by
  refine (runs_beginSearch h).bind fun _ o₁ hlater₁ h₁ => ?_
  refine (runs_localLog run).bind fun log o₂ hlater₂ h₂ => runs_get_bind ?_
  rw [hlater₂.model.trans (hlater₁.model.trans hmodel)]
  have h₂' : o₂.Room → Prepared clauses m ⟨m.vars, m.hardConstraints, []⟩
      (Formulation.sayings m m.hardConstraints) .searching o₂ := by
    intro hroom
    have hprepared := h₁ (hlater₂.room hroom)
    rw [h₂ hroom]
    exact ⟨hprepared.model, hprepared.formulation, hprepared.stands, hprepared.phase,
      hprepared.asked⟩
  refine runs_except_bind (tame_ofLog hm.toIndexed log) (fun warm hlog => ?_)
    fun _ _ _ hfair => hfair.elim
  refine (runs_optimizeTiers hb hm (fun _ => pins_ofLog hlog) h₂').mono
    fun _ o₃ _ _ h₃ => ⟨h₃.mono ?_, h₃.foremost⟩
  cases warm <;> simp [WarmStart.tries]

end Optimizer

namespace Strategy

open Optimizer

variable {σ : Type} {b : Backend σ} {clauses : σ → List Clause} {m : Model} {o : Optimizer σ}
  {fair : Optimizer σ → Prop}

/-- All steps of a search tier by tier, from a given warm start. -/
def completeTiers (b : Backend σ) (warm : Option WarmStart) (name : String) : Action σ Report := do
  formulateHard b
  encode b
  beginSearch b
  optimizeTiers b warm
  ((← get).report b name : Checked Report)

theorem complete_incremental (b : Backend σ) (run : LocalSearch.Runner) :
    complete b run .incremental = completeTiers b none incremental.name := by
  simp only [complete, completeTiers, formulate, search, searchIncremental, bind_assoc]

/-- What a report on a search tier by tier says. -/
structure Lexicographic (m : Model) (r : Report) (o : Optimizer σ) : Prop where
  /-- The tiers are listed by falling price, with the totals of a feasible assignment that no other
  has smaller ones than. -/
  optimal : r.status = .optimal → ∃ value, m.Foremost value ∧
    r.assignment = m.vars.map (fun x => (x.name, value x.name)) ∧ r.hardViolations = 0 ∧
    r.tiers = m.tiers.map (fun t => (t.price, m.tierTotal value t.price)) ∧
    (r.tiers.map (·.1)).Pairwise (· > ·) ∧ r.tiers.map (·.2) = m.totals value
  /-- Without an interruption there is a verdict, and nothing is refused that is feasible. -/
  decided : o.Uninterrupted → (r.status = .optimal ∨ r.status = .infeasible) ∧
    (r.status = .infeasible ↔ ¬∃ value, m.Feasible value)

theorem lexicographic_of_searched (hm : m.Formulable) {firsts : Nat} (h : TiersSearched m firsts o)
    {name : String} {r : Report} (hr : o.report b name = .ok r) : Lexicographic m r o := by
  refine ⟨fun hopt => ?_, h.decided_report hr⟩
  obtain ⟨s, hs, hforemost⟩ := h.foremost ((Report.new_status hr).1 ▸ hopt)
  obtain ⟨hassignment, hhard, htiers⟩ := h.report_best hm.toWellFormed hr hs
  refine ⟨s.value, hforemost, hassignment, hhard, htiers, ?_, ?_⟩
  · rw [htiers, List.map_map]
    exact m.falling_tiers
  · rw [htiers, List.map_map, Model.totals, List.map_map]
    rfl

theorem runs_completeTiers (hb : b.Sound clauses) (hm : m.Formulable)
    (h : Prepared clauses m .empty [] .start o) {warm : Option WarmStart} (hwarm : Pins m warm)
    (name : String) : Runs fair (completeTiers b warm name) o fun r o' =>
      TiersSearched m (WarmStart.tries warm) o' ∧ o'.report b name = .ok r := by
  refine (runs_formulateHard hm h).bind fun _ o₁ _ h₁ => ?_
  refine (runs_encode hb h₁).bind fun _ o₂ _ h₂ => ?_
  refine (runs_beginSearch h₂).bind fun _ o₃ _ h₃ => ?_
  refine (runs_optimizeTiers hb hm (fun _ => hwarm) h₃).bind fun _ o₄ _ h₄ => runs_get_bind ?_
  exact runs_checked (tame_report b _ _) fun r hr hroom => ⟨h₄ hroom, hr⟩

theorem runs_hybrid (hb : b.Sound clauses) (hm : m.Formulable)
    (h : Prepared clauses m .empty [] .start o) (run : LocalSearch.Runner) :
    Runs (fun _ => False) (complete b run .hybrid) o fun r o' =>
      TiersSearched m 2 o' ∧ o'.report b hybrid.name = .ok r := by
  refine (runs_formulateHard hm h).bind fun _ o₁ hlater₁ h₁ => ?_
  refine (runs_encode hb h₁).bind fun _ o₂ hlater₂ h₂ => ?_
  have hmodel : o₂.model = m := hlater₂.model.trans (hlater₁.model.trans h.model)
  refine (runs_searchHybrid hb hm run hmodel h₂).bind fun _ o₃ _ h₃ => runs_get_bind ?_
  exact runs_checked (tame_report b _ _) fun r hr hroom => ⟨h₃ hroom, hr⟩

/-- **Tier by tier is exact.** An optimal report lists the least totals in the lexicographic order
of falling prices, with or without a warm start and whatever that assumes; and without an
interruption every report is optimal or says, rightly, that nothing is feasible. -/
theorem tiers_exact (hb : b.Sound clauses) {s₀ : σ} (h₀ : clauses s₀ = []) (hm : m.Built)
    (hnames : ∀ x ∈ m.vars, Names.isReserved x.name = false) {options : MethodOptions}
    (hnew : Optimizer.new b s₀ m options = .ok o) (run : LocalSearch.Runner) :
    Ends (complete b run .incremental o) (Lexicographic m) ∧
    (∀ warm : WarmStart, (∀ p ∈ warm.pins, ∃ x ∈ m.vars, x.name = p.1) →
      Ends (completeTiers b (some warm) hybrid.name o) (Lexicographic m)) ∧
    ∀ r o', complete b run .hybrid o = .ok r o' → o'.Room → Lexicographic m r o' := by
  obtain ⟨hprepared, hsupported⟩ := prepared_new hb h₀ hnew
  have hform := Model.formulable_of_built hm hnames hsupported
  have hends : ∀ warm name, Pins m warm → Ends (completeTiers b warm name o) (Lexicographic m) := by
    intro warm name hwarm
    refine (runs_completeTiers hb hform hprepared hwarm name).ends fun r o' h => ?_
    exact lexicographic_of_searched hform h.1 h.2
  refine ⟨?_, fun warm hwarm => hends _ _ ?_, fun r o' heq hroom => ?_⟩
  · rw [complete_incremental]
    exact hends _ _ (by simp [Pins])
  · intro w hw
    cases hw
    exact hwarm
  · obtain ⟨-, hend⟩ := (runs_hybrid hb hform hprepared run).of_eq_ok heq
    exact lexicographic_of_searched hform (hend hroom).1 (hend hroom).2

/-- A warm start that is wrong about everything does no harm. -/
theorem tiers_exact_torn : ∃ r o',
    completeTiers .reference (some ⟨[("y", 1)], 0⟩) hybrid.name tornStart = .ok r o' ∧ o'.Room ∧
      o'.Uninterrupted ∧ r.status = .optimal ∧ r.tiers = [(2, 0), (1, 1)] ∧
      ∃ value, Model.Sample.torn.Foremost value ∧ Model.Sample.torn.totals value = [0, 1] := by
  have hrun : digest (completeTiers .reference (some ⟨[("y", 1)], 0⟩) hybrid.name tornStart) =
      some ⟨.optimal, some 1, [(2, 0), (1, 1)], 5, 16, true⟩ := by cbv
  obtain ⟨r, o', heq, hroom, hdigest⟩ := exists_run_of_digest hrun (by decide)
  have hexact := (tiers_exact Backend.reference_sound rfl Model.Sample.built_torn (by decide)
    (show Optimizer.new .reference [] Model.Sample.torn {} = .ok tornStart from rfl)
    fun _ => .killed).2.1 ⟨[("y", 1)], 0⟩ (by decide)
  rw [heq] at hexact
  have hstatus : r.status = .optimal := congrArg Digest.status hdigest
  have htiers : r.tiers = [(2, 0), (1, 1)] := congrArg Digest.tiers hdigest
  obtain ⟨value, hforemost, -, -, -, -, htotals⟩ := (hexact hroom).optimal hstatus
  refine ⟨r, o', heq, hroom, uninterrupted_of_answered (congrArg Digest.answered hdigest), hstatus,
    htiers, value, hforemost, ?_⟩
  rw [← htotals, htiers]
  rfl

end Strategy

end WeightedCsp

import WeightedCsp.Proofs.Method.Ending
import WeightedCsp.Proofs.Method.Moves

/-!
# Calls in any order

A user may call the steps of a method in any order and go on after an error.  `Strategy.callAll`
notes what comes of each call.  A property of optimizers that every move keeps, and a failed
encoding too, holds after all calls, or it held before a clause was refused in a search, and nothing
was done since (`callAll_induction`).

A method that calls its result optimal has an assignment to show for it, as long as no encoding
failed (`Strategy.optimal_presentable`).  But an encoding that fails empties the queue and leaves
the phase where it is, so it can be called again: now nothing is left to fail, and the search is
about nothing.  `Strategy.optimal_after_failure` is such a sequence of calls.
-/

namespace WeightedCsp

/-- A step of a method as its user calls it. -/
inductive Call where
  /-- Queue what is known of the model. -/
  | formulate
  /-- Compile the queue. -/
  | encode
  /-- Search for the best assignment. -/
  | search
deriving DecidableEq, Repr

namespace Strategy

variable {σ : Type}

/-- The step that is called. -/
def call (b : Backend σ) (run : LocalSearch.Runner) (strategy : Strategy) :
    Call → Optimizer.Action σ Unit
  | .formulate => strategy.formulate b
  | .encode => Optimizer.encode b
  | .search => strategy.search b run

/-- Calls steps one after the other, also after errors.  Gives the calls with their errors and the
optimizer; nothing goes on after a fault. -/
def callAll (b : Backend σ) (run : LocalSearch.Runner) (strategy : Strategy) :
    List Call → Optimizer σ → Checked (List (Call × Option MethodError) × Optimizer σ)
  | [], o => .ok ([], o)
  | c :: cs, o =>
    match strategy.call b run c o with
    | .ok _ o => do
      let (log, o) ← callAll b run strategy cs o
      return ((c, none) :: log, o)
    | .error (.error e) o => do
      let (log, o) ← callAll b run strategy cs o
      return ((c, some e) :: log, o)
    | .error (.fault t) _ => .error t

/-- No call of an encoding failed for what was queued. -/
def EncodingsSucceed (log : List (Call × Option MethodError)) : Prop :=
  ∀ e, (Call.encode, some (.session e)) ∉ log

end Strategy

namespace Optimizer

variable {σ : Type} {b : Backend σ} {o o' : Optimizer σ}

/-- A step that demands another phase fails at once. -/
theorem expect_bind_of_ne {α : Type} {expected : Phase} (h : o.phase ≠ expected)
    {f : Unit → Action σ α} :
    (expect expected >>= f) o = .error (.error (.wrongPhase expected o.phase)) o :=
  Step.bind_eq_error.2 (.inl (if_neg h))

/-- What a call of an encoding does. -/
theorem encode_eq_ok (h : encode b o = .ok () o') : Move b o o' := by
  obtain ⟨_, o₁, hexpect, h₁⟩ := Step.bind_eq_ok.1 h
  obtain ⟨_, o₂, hcommit, h₂⟩ := Step.bind_eq_ok.1 h₁
  unfold expect at hexpect
  split_ifs at hexpect with hphase
  cases hexpect
  unfold inSession at hcommit
  split at hcommit
  · next u s hs =>
    cases hcommit
    cases h₂
    exact .encode hphase hs
  · cases hcommit

/-- A call of an encoding fails in the wrong phase, or because of what is queued. -/
theorem encode_eq_error {e : MethodError} (h : encode b o = .error (.error e) o') :
    o' = o ∧ (∃ phase, e = .wrongPhase .formulated phase) ∨
      ∃ cause s, e = .session cause ∧ Session.commit b o.session = .error (.error cause) s ∧
        o' = { o with session := s } := by
  rcases Step.bind_eq_error.1 h with hexpect | ⟨_, o₁, hexpect, h₁⟩
  · unfold expect at hexpect
    split_ifs at hexpect
    cases hexpect
    exact .inl ⟨rfl, _, rfl⟩
  unfold expect at hexpect
  split_ifs at hexpect
  cases hexpect
  rcases Step.bind_eq_error.1 h₁ with hcommit | ⟨_, o₂, hcommit, h₂⟩
  · unfold inSession at hcommit
    split at hcommit
    · cases hcommit
    · next f s hs =>
      cases f with
      | fault t => cases hcommit
      | error cause =>
        cases hcommit
        exact .inr ⟨cause, s, rfl, hs, rfl⟩
  · cases h₂

end Optimizer

namespace Strategy

open Optimizer

variable {σ : Type} {b : Backend σ} {run : LocalSearch.Runner} {strategy : Strategy}

/-- In a search that is on, no step can be called. -/
theorem call_of_searching (b : Backend σ) (run : LocalSearch.Runner) (strategy : Strategy)
    {o : Optimizer σ} (h : o.Searching) (c : Call) :
    ∃ e, strategy.call b run c o = .error (.error e) o := by
  unfold Searching at h
  cases c with
  | formulate =>
    have hne : o.phase ≠ .start := by simp [h]
    cases strategy <;> exact ⟨_, expect_bind_of_ne hne⟩
  | encode =>
    have hne : o.phase ≠ .formulated := by simp [h]
    exact ⟨_, expect_bind_of_ne hne⟩
  | search =>
    have hne : o.phase ≠ .encoded := by simp [h]
    have hbegin : beginSearch b o = .error (.error (.wrongPhase .encoded o.phase)) o :=
      expect_bind_of_ne hne
    cases strategy <;> exact ⟨_, Step.bind_eq_error.2 (.inl hbegin)⟩

theorem callAll_of_searching {cs : List Call} {log : List (Call × Option MethodError)}
    {o o' : Optimizer σ} (ho : o.Searching) (h : strategy.callAll b run cs o = .ok (log, o')) :
    o' = o := by
  induction cs generalizing log with
  | nil =>
    cases h
    rfl
  | cons c cs ih =>
    obtain ⟨e, hcall⟩ := call_of_searching b run strategy ho c
    simp only [callAll, hcall] at h
    obtain ⟨⟨rest, o₁⟩, hrest, h₁⟩ := Checked.bind_eq_ok.1 h
    cases h₁
    exact ih hrest

/-- **Induction over calls.** What every move keeps, and an encoding that fails unless all are to
succeed, holds after all calls, or it held until a clause was refused in a search. -/
theorem callAll_induction {p : Optimizer σ → Prop} {careful : Prop}
    (hmove : ∀ o o', Move b o o' → p o → p o')
    (hfails : ¬careful → ∀ o e s, Session.commit b o.session = .error (.error e) s → p o →
      p { o with session := s })
    {cs : List Call} {log : List (Call × Option MethodError)} {o o' : Optimizer σ}
    (h : strategy.callAll b run cs o = .ok (log, o')) (hlog : careful → EncodingsSucceed log)
    (ho : p o) : p o' ∨ ∃ o₁, p o₁ ∧ Refused b o₁ o' := by
  -- A call that is not an encoding walks through moves, whether it succeeds or fails.
  have hpath : ∀ o o', Path b o o' → p o → p o' := by
    intro o o' hpath
    induction hpath with
    | refl => exact id
    | tail _ hlast ih => exact fun ho => hmove _ _ hlast (ih ho)
  -- After a refused clause nothing else happens.
  have hstops : ∀ {o o₁ o' : Optimizer σ} {cs log}, Stops b o o₁ → p o →
      strategy.callAll b run cs o₁ = .ok (log, o') →
      (p o₁ → p o' ∨ ∃ o₂, p o₂ ∧ Refused b o₂ o') → p o' ∨ ∃ o₂, p o₂ ∧ Refused b o₂ o' := by
    rintro o o₁ o' cs log (hend | ⟨o₂, hend, hrefused⟩) ho hrest hgo
    · exact hgo (hpath _ _ hend ho)
    · rw [callAll_of_searching hrefused.searching hrest]
      exact .inr ⟨o₂, hpath _ _ hend ho, hrefused⟩
  induction cs generalizing o log with
  | nil =>
    cases h
    exact .inl ho
  | cons c cs ih =>
    unfold callAll at h
    split at h
    · next u o₁ hcall =>
      obtain ⟨⟨rest, o₂⟩, hrest, h₁⟩ := Checked.bind_eq_ok.1 h
      cases h₁
      refine ih hrest (fun hc e he => hlog hc e (List.mem_cons_of_mem _ he)) ?_
      cases c with
      | formulate => exact hpath _ _ ((walks_formulate strategy).of_eq_ok hcall).1 ho
      | encode => exact hmove _ _ (encode_eq_ok hcall) ho
      | search => exact hpath _ _ ((walks_search run strategy).of_eq_ok hcall).1 ho
    · next e o₁ hcall =>
      obtain ⟨⟨rest, o₂⟩, hrest, h₁⟩ := Checked.bind_eq_ok.1 h
      cases h₁
      have hgo := ih hrest fun hc e he => hlog hc e (List.mem_cons_of_mem _ he)
      cases c with
      | formulate => exact hstops ((walks_formulate strategy).of_eq_error hcall) ho hrest hgo
      | encode =>
        refine hgo ?_
        rcases encode_eq_error hcall with ⟨rfl, -⟩ | ⟨cause, s, rfl, hcommit, rfl⟩
        · exact ho
        · exact hfails (fun hc => hlog hc cause List.mem_cons_self) _ _ _ hcommit ho
      | search => exact hstops ((walks_search run strategy).of_eq_error hcall) ho hrest hgo
    · cases h

end Strategy

/-! ### Optimal results -/

/-- Values that satisfy what is said of variables and hard constraints are feasible. -/
theorem Model.WellFormed.feasible_of_sayings {m : Model} (hm : m.WellFormed) {value : String → Int}
    (h : Expr.AllHold value (Formulation.sayings m m.hardConstraints)) : m.Feasible value := by
  obtain ⟨hvars, hcons⟩ := Expr.allHold_append.1 h
  obtain ⟨hin, hind⟩ := Formulation.allHold_flatMap_variableExprs.1 hvars
  rw [Expr.allHold_iff, List.forall_mem_flatMap] at hcons
  refine hm.feasible_iff.2 ⟨hin, fun c hc hweight => ?_⟩
  have hown := Expr.allHold_iff.2 (hcons c (Model.mem_hardConstraints.2 ⟨hc, hweight⟩))
  have hind' : Formulation.Indicated value c.vars := fun x hx => hind x (hm.declared c hc x hx)
  exact (Formulation.allHold_hard (hm.constraints c hc) hweight hind').1 hown

/-- A solution under assumptions is one without them. -/
theorem Outcome.RightFor.unassumed {exprs : List Expr} {assumed : List Assumption} {s : Solution}
    (h : Outcome.RightFor exprs assumed (.sat s)) : Outcome.RightFor exprs [] (.sat s) :=
  ⟨h.1, h.2.1, by simp⟩

/-- A solution of what is said of variables and hard constraints, and of more, can be shown. -/
theorem Model.WellFormed.presentable {m : Model} (hm : m.WellFormed) {exprs : List Expr}
    {assumed : List Assumption} {s : Solution} (h : Outcome.RightFor exprs assumed (.sat s))
    (hsub : Formulation.sayings m m.hardConstraints ⊆ exprs) : s.Presentable m := by
  refine h.unassumed.presentable (fun x hx => ?_) fun value hall => hm.feasible_of_sayings ?_
  · obtain ⟨e, he, hdecl⟩ := Expr.mem_declaredBy.1
      (Model.Formulable.introduced_variableExprs m x hx).1
    exact Expr.mem_declaredBy.2 ⟨e, hsub (List.mem_append_left _ he), hdecl⟩
  · rw [Expr.allHold_iff] at hall ⊢
    exact fun e he => hall e (hsub he)

namespace Optimizer

variable {σ : Type} {b : Backend σ} {clauses : σ → List Clause} {m : Model} {o o' : Optimizer σ}

/-- All answers so far can be shown: what was said of variables and hard constraints is queued once
it is formulated, and compiled once the search may be on. -/
structure Founded (clauses : σ → List Clause) (m : Model) (compiled : List Expr)
    (assumed : List Assumption) (o : Optimizer σ) : Prop where
  /-- The session represents what was compiled. -/
  represents : o.session.Represents clauses compiled assumed
  /-- What is formulated is queued. -/
  queued : o.phase = .formulated →
    Formulation.sayings m m.hardConstraints ⊆ o.session.pending
  /-- What is encoded is compiled. -/
  encoded : o.PastEncoding → Formulation.sayings m m.hardConstraints ⊆ compiled
  /-- Answers can be shown. -/
  answered : ∀ s, o.Received s → s.Presentable m
  /-- The best solution can be shown. -/
  best : ∀ s, o.best = some s → s.Presentable m
  /-- What is optimal was found. -/
  optimal : o.phase = .optimal → o.best ≠ none

/-- Another session, in a search that may be on. -/
theorem Founded.session {compiled compiled' : List Expr} {assumed assumed' : List Assumption}
    (h : Founded clauses m compiled assumed o) (hpast : o.PastEncoding) {s : Session σ}
    (hs : s.Represents clauses compiled' assumed') (hsub : compiled ⊆ compiled') (solves : Nat) :
    Founded clauses m compiled' assumed' { o with session := s, solves := solves } where
  represents := hs
  queued hphase := absurd hphase hpast.2
  encoded hpast := List.Subset.trans (h.encoded hpast) hsub
  answered := h.answered
  best := h.best
  optimal := h.optimal

/-- After one more question, a solution was received before or is its answer. -/
theorem received_append {bound : Option Int} {outcome : Outcome} {s : Solution}
    (h : ∃ q ∈ o.questions ++ [⟨bound, outcome⟩], q.outcome = .sat s) :
    o.Received s ∨ outcome = .sat s := by
  obtain ⟨q, hq, houtcome⟩ := h
  rcases List.mem_append.1 hq with hq | hq
  · exact .inl ⟨q, hq, houtcome⟩
  · rw [List.mem_singleton.1 hq] at houtcome
    exact .inr houtcome

/-- **Moves** keep answers presentable. -/
theorem Move.founded (hb : b.Sound clauses) (hm : m.WellFormed) (h : Move b o o')
    (hroom : o'.Room) (hmodel : o.model = m) {compiled : List Expr} {assumed : List Assumption}
    (ho : Founded clauses m compiled assumed o) :
    ∃ compiled' assumed', Founded clauses m compiled' assumed' o' := by
  cases h with
  | note h =>
    refine ⟨compiled, assumed, ?_, ?_, ?_, ?_, ?_, ?_⟩
    · rw [h.session]
      exact ho.represents
    · rw [h.phase, h.session]
      exact ho.queued
    · unfold PastEncoding
      rw [h.phase]
      exact ho.encoded
    · unfold Received
      rw [h.questions]
      exact ho.answered
    · rw [h.best]
      exact ho.best
    · rw [h.phase, h.best]
      exact ho.optimal
  | queue _ =>
    refine ⟨compiled, assumed, ?_, fun hphase => ?_, ho.encoded, ho.answered, ho.best, ho.optimal⟩
    · exact ho.represents.congr rfl (Nat.le_refl _) rfl rfl rfl rfl
    · exact List.Subset.trans (ho.queued hphase) (List.subset_append_left _ _)
  | formulated hphase hsaid =>
    refine ⟨compiled, assumed, ho.represents, fun _ => ?_, fun hpast => absurd rfl hpast.2,
      ho.answered, ho.best, by simp⟩
    rw [← hmodel]
    exact hsaid
  | encode hphase hcommit =>
    obtain ⟨hs, -, -⟩ := Session.commit_represents hb ho.represents hcommit hroom
    refine ⟨_, _, hs, by simp, fun _ => ?_, ho.answered, ho.best, by simp⟩
    exact List.Subset.trans (ho.queued hphase) (List.subset_append_right _ _)
  | assume hpast hassume =>
    obtain ⟨hs, -⟩ := Session.assume_represents hb ho.represents hassume hroom
    exact ⟨_, _, ho.session hpast hs (List.subset_append_left _ _) _⟩
  | assumeFails hpast he hassume =>
    obtain ⟨-, ⟨-, hs⟩ | ⟨-, hs⟩ | ⟨message, rfl⟩⟩ :=
      Session.assume_error_represents hb ho.represents hassume hroom
    · exact ⟨_, _, ho.session hpast hs (List.Subset.refl _) _⟩
    · exact ⟨_, _, ho.session hpast hs (List.subset_append_left _ _) _⟩
    · exact absurd rfl (he message)
  | @ask _ _ _ outcome _ hpast hsolve =>
    obtain ⟨hs, -, hright⟩ := Session.solve_represents hb ho.represents hsolve hroom
    -- The answer is right for all that was compiled, so for what was said of the model.
    have hsub : Formulation.sayings m m.hardConstraints ⊆ compiled ++ o.session.pending :=
      List.Subset.trans (ho.encoded hpast) (List.subset_append_left _ _)
    refine ⟨_, _, hs, fun hphase => absurd hphase hpast.2, fun _ => hsub, ?_, ho.best, ho.optimal⟩
    intro s hreceived
    rcases received_append hreceived with hreceived | rfl
    · exact ho.answered s hreceived
    · exact hm.presentable hright hsub
  | askFails hpast he hsolve =>
    obtain ⟨-, ⟨-, hs⟩ | ⟨-, hs⟩ | ⟨message, rfl⟩⟩ :=
      Session.solve_error_represents hb ho.represents hsolve hroom
    · exact ⟨_, _, ho.session hpast hs (List.Subset.refl _) _⟩
    · exact ⟨_, _, ho.session hpast hs (List.subset_append_left _ _) _⟩
    · exact absurd rfl (he message)
  | skip =>
    refine ⟨compiled, assumed, ho.represents, ho.queued, ho.encoded, ?_, ho.best, ho.optimal⟩
    intro s hreceived
    rcases received_append hreceived with hreceived | hnone
    · exact ho.answered s hreceived
    · cases hnone
  | record hs =>
    refine ⟨compiled, assumed, ho.represents, ho.queued, ho.encoded, ho.answered, fun t ht => ?_,
      fun _ => Option.some_ne_none _⟩
    cases ht
    exact ho.answered _ hs
  | enter hpast hphase hoptimal =>
    exact ⟨compiled, assumed, ho.represents, fun hformulated => absurd hformulated hphase.2,
      fun _ => ho.encoded hpast, ho.answered, ho.best, hoptimal⟩

/-- The optimizer is for the model, and its answers can be shown as long as there is room. -/
def IsFounded (clauses : σ → List Clause) (m : Model) (o : Optimizer σ) : Prop :=
  o.model = m ∧ (o.Room → ∃ compiled assumed, Founded clauses m compiled assumed o)

theorem Move.isFounded (hb : b.Sound clauses) (hm : m.WellFormed) (h : Move b o o')
    (ho : o.IsFounded clauses m) : o'.IsFounded clauses m := by
  obtain ⟨hmodel, hfounded⟩ := ho
  refine ⟨h.later.model.trans hmodel, fun hroom => ?_⟩
  obtain ⟨compiled, assumed, hfounded⟩ := hfounded (h.later.room hroom)
  exact h.founded hb hm hroom hmodel hfounded

end Optimizer

namespace Strategy

open Optimizer

variable {σ : Type} {b : Backend σ} {clauses : σ → List Clause}

/-- **Optimal results are presentable.** After calls of any steps in any order, of which some may
have failed but no encoding for what was queued, a result that is called optimal is an assignment to
all variables of the model that violates no hard constraint. -/
theorem optimal_presentable (hb : b.Sound clauses) {s₀ : σ} (h₀ : clauses s₀ = []) {m : Model}
    (hm : m.Built) {options : MethodOptions} {o : Optimizer σ}
    (hnew : Optimizer.new b s₀ m options = .ok o) (run : LocalSearch.Runner) (strategy : Strategy)
    {cs : List Call} {log : List (Call × Option MethodError)} {o' : Optimizer σ}
    (hcalls : strategy.callAll b run cs o = .ok (log, o')) (hroom : o'.Room)
    (hlog : EncodingsSucceed log) (hoptimal : o'.phase = .optimal) :
    ∃ s : Solution, o'.best = some s ∧ s.Presentable m ∧
      ∀ r, o'.report b strategy.name = .ok r → r.status = .optimal ∧
        r.assignment = m.vars.map (fun x => (x.name, s.value x.name)) ∧ r.hardViolations = 0 := by
  have hwf := hm.wellFormed
  -- Nothing is compiled yet at the start, and no question has been asked.
  have hstart : o.IsFounded clauses m := by
    obtain ⟨-, s, hstart, rfl⟩ := new_eq_ok.1 hnew
    have hrepresents := Session.start_represents hb h₀ hstart
    refine ⟨rfl, fun _ => ⟨[], [], hrepresents, by simp [initial], ?_, ?_, by simp [initial],
      by simp [initial]⟩⟩
    · exact fun hpast => absurd rfl hpast.1
    · rintro s ⟨q, hq, -⟩
      cases hq
  have hcareful : True → EncodingsSucceed log := fun _ => hlog
  have hend : o'.IsFounded clauses m := by
    rcases callAll_induction (fun _ _ hmove => hmove.isFounded hb hwf)
      (fun hne => absurd trivial hne) hcalls hcareful hstart with hend | ⟨o₁, -, hrefused⟩
    · exact hend
    · -- A search that a refused clause has stopped is not optimal.
      cases hrefused.searching.symm.trans hoptimal
  obtain ⟨hmodel, hfounded⟩ := hend
  obtain ⟨compiled, assumed, hfounded⟩ := hfounded hroom
  obtain ⟨s, hs⟩ := Option.ne_none_iff_exists'.1 (hfounded.optimal hoptimal)
  have hpresentable := hfounded.best s hs
  refine ⟨s, hs, hpresentable, fun r hr => ?_⟩
  have hstatus := (Report.new_status hr).1
  unfold Optimizer.report at hr
  rw [hmodel, hs] at hr
  obtain ⟨hassignment, hhard, -⟩ :=
    Report.new_eq_ok hwf hpresentable.covers hpresentable.feasible.inDomains hr
  rw [Model.hardCount_eq_zero hwf hpresentable.feasible] at hhard
  exact ⟨hstatus.trans hoptimal, hassignment, hhard⟩

/-- What is of interest about calls: their errors, the phase, the variables in use, and the
assignment of the report. -/
structure Summary where
  log : List (Call × Option MethodError)
  phase : Phase
  next : Nat
  assignment : List (String × Int)

/-- The summary of calls and of the report on them, unless there is a fault. -/
def summary (b : Backend σ) (strategy : Strategy)
    (r : Checked (List (Call × Option MethodError) × Optimizer σ)) : Option Summary :=
  match r with
  | .error _ => none
  | .ok (log, o) =>
    match o.report b strategy.name with
    | .error _ => none
    | .ok report => some ⟨log, o.phase, o.session.next, report.assignment⟩

theorem summary_eq_some {strategy : Strategy}
    {r : Checked (List (Call × Option MethodError) × Optimizer σ)} {t : Summary}
    (h : summary b strategy r = some t) : ∃ o report, r = .ok (t.log, o) ∧ o.phase = t.phase ∧
      o.session.next = t.next ∧ o.report b strategy.name = .ok report ∧
      report.assignment = t.assignment := by
  cases r with
  | error e => cases h
  | ok p =>
    obtain ⟨log, o⟩ := p
    unfold summary at h
    cases hreport : o.report b strategy.name with
    | error e =>
      simp only [hreport] at h
      cases h
    | ok report =>
      simp only [hreport, Option.some.injEq] at h
      subst h
      exact ⟨o, report, rfl, rfl, rfl, hreport, rfl⟩

/-- Steps that are called too early or twice fail and do no harm. -/
def clumsyCalls : List Call := [.search, .formulate, .formulate, .encode, .search, .search]

theorem optimal_presentable_clumsy : ∃ log o' s report,
    linear.callAll .reference (fun _ => .killed) clumsyCalls forcedStart = .ok (log, o') ∧
      o'.phase = .optimal ∧ Solution.Presentable Model.Sample.forced s ∧
      o'.report .reference "linear" = .ok report ∧ report.assignment = [("y", s.value "y")] := by
  have hrun : summary .reference linear
      (linear.callAll .reference (fun _ => .killed) clumsyCalls forcedStart) =
      some ⟨[(.search, some (.wrongPhase .encoded .start)), (.formulate, none),
        (.formulate, some (.wrongPhase .start .formulated)), (.encode, none), (.search, none),
        (.search, some (.wrongPhase .encoded .optimal))], .optimal, 15, [("y", 0)]⟩ := by
    cbv
  obtain ⟨o', report, heq, hphase, hnext, hreport, -⟩ := summary_eq_some hrun
  have hroom : o'.Room := by
    rw [Room, hnext]
    decide
  obtain ⟨s, -, hpresentable, hshown⟩ := optimal_presentable Backend.reference_sound rfl
    Model.Sample.built_forced
    (show Optimizer.new .reference [] Model.Sample.forced {} = .ok forcedStart from rfl)
    (fun _ => .killed) linear heq hroom (by simp [EncodingsSucceed]) hphase
  exact ⟨_, o', s, report, heq, hphase, hpresentable, hreport, (hshown report hreport).2.1⟩

end Strategy

namespace Model.Sample

/-- A name for two values that lie far apart. -/
def far (name : String) : Variable :=
  ⟨name, ⟨[-2305843009213693952, 2305843009213693952], by decide, by decide⟩⟩

/-- A sum whose steps are too large to be added up. -/
def farSum : Constraint := ⟨"c", .hard, .linear [⟨1, far "x"⟩, ⟨1, far "y"⟩, ⟨1, far "z"⟩] .le 0⟩

/-- A model that cannot be encoded. -/
def wide : Model := .ofLists [far "x", far "y", far "z"] [farSum]

theorem built_wide : wide.Built := by
  have hvar : ∀ name, Identifier.isValid name →
      Variable.new name (far name).domain = .ok (far name) := by
    intro name hname
    simp [Variable.new, Identifier.check, hname]
    rfl
  have hsum : Constraint.linear "c" .hard [⟨1, far "x"⟩, ⟨1, far "y"⟩, ⟨1, far "z"⟩] (some .le) 0 =
      .ok farSum := rfl
  have hx : Built (.ofLists [far "x"] []) := .addVariable .empty (hvar "x" rfl) rfl
  have hxy : Built (.ofLists [far "x", far "y"] []) := .addVariable hx (hvar "y" rfl) rfl
  have hxyz : Built (.ofLists [far "x", far "y", far "z"] []) := .addVariable hxy (hvar "z" rfl) rfl
  exact .addConstraint hxyz (.linear hsum) rfl

end Model.Sample

namespace Strategy

open Optimizer

/-- The optimizer for a model that cannot be encoded. -/
def wideStart : Optimizer (List Clause) := referenceStart Model.Sample.wide

/-- After an encoding that failed, the search is about nothing, and the report on what is called
optimal shows no assignment. -/
theorem optimal_after_failure : Model.Sample.wide.Built ∧
    Optimizer.new .reference [] Model.Sample.wide {} = .ok wideStart ∧ ∃ log o' report,
      linear.callAll .reference (fun _ => .killed) [.formulate, .encode, .encode, .search]
        wideStart = .ok (log, o') ∧ o'.Room ∧ o'.phase = .optimal ∧
      o'.report .reference "linear" = .ok report ∧ report.assignment = [] ∧
      Model.Sample.wide.vars.length = 3 := by
  have hrun : summary .reference linear (linear.callAll .reference (fun _ => .killed)
      [.formulate, .encode, .encode, .search] wideStart) =
      some ⟨[(.formulate, none), (.encode, some (.session (.compile
        "(le (add (mul 1 x) (mul 1 y) (mul 1 z)) 0) ; c" (.encoding .overflow)))), (.encode, none),
        (.search, none)], .optimal, 10, []⟩ := by
    cbv
  obtain ⟨o', report, heq, hphase, hnext, hreport, hassignment⟩ := summary_eq_some hrun
  refine ⟨Model.Sample.built_wide, rfl, _, o', report, heq, ?_, hphase, hreport, hassignment, rfl⟩
  rw [Room, hnext]
  decide

end Strategy

end WeightedCsp

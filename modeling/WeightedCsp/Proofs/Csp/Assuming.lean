import Mathlib
import WeightedCsp.Proofs.Csp.Rollback

/-!
# How long assumptions hold

An assumption is queued for the next question.  A log of what was asked of a session and how it
responded says which assumptions are queued: those that were accepted after the last question that
was *put*, which means that the batch before it compiled and all its clauses were received
(`Exchange.acceptedSince`).  A question that is put uses its assumptions up, whatever comes of it; a
question that fails at its batch does not come to its assumptions, and they stay for the next one
(`assumption_outlives_question`).

`Queues` is the invariant: the literals that a session holds are those of the queued assumptions.
Each operation keeps it (`Queues.perform`), so it holds after every sequence of operations
(`Queues.performAll`), and the backend is asked under exactly these literals
(`asked_under_accepted`).
-/

namespace WeightedCsp

/-- The literals that stand for the assumption, given the encoded variables. -/
def Assumption.lits (vars : List (String × OrderVar)) (a : Assumption) : List Lit :=
  match vars.lookup a.name with
  | none => []
  | some x =>
    match Session.assumptionAtoms x a.op a.bound with
    | .ok atoms => atoms.flatMap Session.assumptionLits
    | .error _ => []

/-- An operation on a session with the response to it. -/
abbrev Exchange : Type := Operation × Response

namespace Exchange

/-- The operation is a question. -/
def isQuestion : Exchange → Bool
  | (.solve _, _) => true
  | _ => false

/-- The operation is a question whose batch compiled and was received, whatever came of the
question. -/
def isPut : Exchange → Bool
  | (.solve _, .failed (.compile _ _)) => false
  | (.solve _, .failed (.refused _)) => false
  | (.solve _, _) => true
  | _ => false

/-- The assumption that was accepted. -/
def accepted? : Exchange → Option Assumption
  | (.assume name op bound, .done) => some ⟨name, op, bound⟩
  | _ => none

/-- The assumptions that were accepted after the last exchange of a kind. -/
def acceptedSince (kind : Exchange → Bool) (log : List Exchange) : List Assumption :=
  (log.rtakeWhile fun x => !kind x).filterMap accepted?

variable {kind : Exchange → Bool} {log : List Exchange} {x : Exchange}

/-- An exchange of the kind in question begins a new list of assumptions. -/
theorem acceptedSince_of_kind (h : kind x = true) : acceptedSince kind (log ++ [x]) = [] := by
  rw [acceptedSince, List.rtakeWhile_concat_neg _ _ _ (by simp [h]), List.filterMap_nil]

/-- Any other exchange adds the assumption that it accepts, if it does. -/
theorem acceptedSince_concat (h : kind x = false) :
    acceptedSince kind (log ++ [x]) = acceptedSince kind log ++ x.accepted?.toList := by
  rw [acceptedSince, List.rtakeWhile_concat_pos _ _ _ (by simp [h]), List.filterMap_append]
  cases hx : accepted? x <;> simp [acceptedSince, hx]

theorem acceptedSince_of_none (hkind : kind x = false) (hnone : x.accepted? = none) :
    acceptedSince kind (log ++ [x]) = acceptedSince kind log := by
  rw [acceptedSince_concat hkind, hnone, Option.toList_none, List.append_nil]

end Exchange

/-- The response to a question that the backend has answered. -/
def Response.ofAnswer (vars : List (String × OrderVar)) : Except String Answer → Response
  | .ok answer => .answered (Session.outcomeOf vars answer)
  | .error message => .failed (.backend message)

namespace Session

variable {σ : Type} {b : Backend σ} {s t : Session σ} {queued : List Assumption}

/-! ### What one operation does to the queue -/

/-- The session holds the literals of the queued assumptions, which speak of its variables. -/
structure Queues (s : Session σ) (queued : List Assumption) : Prop where
  lits : s.assumptions = queued.flatMap (·.lits s.vars)
  declared : ∀ a ∈ queued, a.name ∈ s.vars.map (·.1)

/-- A batch that is in the tables keeps the encodings of the variables that were declared before
it, whether all its clauses were received or not. -/
theorem Queues.withBatch (hs : Queues s queued) {u : Tables} {x : Unit}
    (h : compileAll s.pending s.tables = .ok x u) (r : σ × Bool) :
    Queues (s.withBatch u r) queued := by
  have henters := enters_compileAll h
  refine ⟨?_, fun a ha => (lookup_of_enters henters (hs.declared a ha)).2⟩
  show s.assumptions = _
  rw [hs.lits]
  apply List.flatMap_congr
  intro a ha
  have hlookup : u.vars.lookup a.name = s.vars.lookup a.name :=
    (lookup_of_enters henters (hs.declared a ha)).1
  rw [Assumption.lits, Assumption.lits, Session.withBatch, hlookup]

/-- A commit keeps the assumptions that are queued. -/
theorem Queues.commit_ok (hs : Queues s queued) {x : Unit} (h : commit b s = .ok x t) :
    Queues t queued := by
  rcases commit_eq_ok h with ⟨-, rfl⟩ | ⟨u, r, hcompile, -, rfl⟩
  · exact hs
  · exact hs.withBatch hcompile r

/-- A commit that fails keeps the assumptions that are queued. -/
theorem Queues.commit_error (hs : Queues s queued) {e : SessionError}
    (h : commit b s = .error (.error e) t) : Queues t queued := by
  rcases commit_eq_error h with ⟨-, -, u, -, -, rfl⟩ | ⟨-, u, r, -, hcompile, -, rfl⟩
  · exact ⟨hs.lits, hs.declared⟩
  · exact hs.withBatch hcompile r

theorem queues_nil (h : s.assumptions = []) : Queues s [] := ⟨h, List.forall_mem_nil _⟩

/-- An assumption is queued if it is accepted, and the queue stays as it is if it is refused. -/
theorem Queues.assume (hs : Queues s queued) {name : String} {op : Comparator} {bound : Int}
    {r : Response} (h : respond (fun _ => .done) (assume b name op bound) s = (r, t))
    (hreturns : r.isStopped = false) :
    Queues t (queued ++ (Exchange.accepted? (.assume name op bound, r)).toList) := by
  cases hcommit : commit b s with
  | error e s₁ =>
    have herror : Session.assume b name op bound s = .error e s₁ :=
      Step.bind_eq_error.2 (.inl hcommit)
    rw [respond_of_error herror] at h
    cases h
    cases e with
    | fault f => cases hreturns
    | error e => simpa [Response.ofFailure, Exchange.accepted?] using hs.commit_error hcommit
  | ok x s₁ =>
    have hs₁ := hs.commit_ok hcommit
    have hassume := assume_of_commit hcommit name op bound
    cases hlookup : s₁.vars.lookup name with
    | none =>
      simp only [hlookup] at hassume
      rw [respond_of_error hassume] at h
      cases h
      simpa [Response.ofFailure, Exchange.accepted?] using hs₁
    | some y =>
      simp only [hlookup] at hassume
      cases hatoms : assumptionAtoms y op bound with
      | error f =>
        -- Arithmetic that leaves the machine range is no refusal: the session is over.
        simp only [hatoms] at hassume
        rw [respond_of_error hassume] at h
        cases h
        cases hreturns
      | ok atoms =>
        simp only [hatoms] at hassume
        rw [respond_of_ok hassume] at h
        cases h
        have hlits : Assumption.lits s₁.vars ⟨name, op, bound⟩ = atoms.flatMap assumptionLits := by
          simp only [Assumption.lits, hlookup, hatoms]
        refine ⟨?_, ?_⟩
        · show s₁.assumptions ++ atoms.flatMap assumptionLits = _
          rw [hs₁.lits, ← hlits]
          simp [Exchange.accepted?]
        · show ∀ a ∈ queued ++ [⟨name, op, bound⟩], a.name ∈ s₁.vars.map (·.1)
          rw [List.forall_mem_append, List.forall_mem_singleton]
          have hmem : (name, y) ∈ s₁.tables.vars := Tables.mem_of_lookup hlookup
          exact ⟨hs₁.declared, List.mem_map_of_mem hmem⟩

/-- A question that is put empties the queue, and one that is not put leaves it as it is. -/
theorem Queues.solve (hs : Queues s queued) {limit : Option Nat} {r : Response}
    (h : respond .answered (solve b limit) s = (r, t)) (hreturns : r.isStopped = false) :
    Queues t (if Exchange.isPut (.solve limit, r) then [] else queued) := by
  cases hcommit : commit b s with
  | error e s₁ =>
    have herror : Session.solve b limit s = .error e s₁ := Step.bind_eq_error.2 (.inl hcommit)
    rw [respond_of_error herror] at h
    cases h
    cases e with
    | fault f => cases hreturns
    | error e =>
      -- The batch did not compile or was not received, so the question was not put.
      have hs₁ := hs.commit_error hcommit
      obtain ⟨text, cause, -, rfl, -⟩ | ⟨message, -, -, rfl, -⟩ := commit_eq_error hcommit
      · exact hs₁
      · exact hs₁
  | ok x s₁ =>
    -- From here on the assumptions are used up, whatever the backend says.
    have hsolve := solve_of_commit hcommit limit
    split_ifs at hsolve
    · rw [respond_of_ok hsolve] at h
      cases h
      exact queues_nil rfl
    · rw [respond_of_error hsolve] at h
      cases h
      cases hreturns
    · cases hanswer : (b.solve s₁.backend s₁.assumptions limit).1 with
      | error message =>
        simp only [hanswer] at hsolve
        rw [respond_of_error hsolve] at h
        cases h
        exact queues_nil rfl
      | ok answer =>
        simp only [hanswer] at hsolve
        rw [respond_of_ok hsolve] at h
        cases h
        exact queues_nil rfl

/-- A question that is put to the backend is asked under the literals that the session holds. -/
theorem perform_solve_of_commit {x : Unit} (hcommit : commit b s = .ok x t)
    (hcontra : t.contradiction = false) {limit : Option Nat}
    (hclock : isBeyondClock limit = false) :
    perform b (.solve limit) s =
      (.ofAnswer t.vars (b.solve t.backend t.assumptions limit).1,
        { t with assumptions := [], backend := (b.solve t.backend t.assumptions limit).2 }) := by
  have hsolve := solve_of_commit hcommit limit
  rw [if_neg (by simp [hcontra]), if_neg (by simp [hclock])] at hsolve
  rw [perform]
  cases hreply : (b.solve t.backend t.assumptions limit).1 with
  | error message =>
    simp only [hreply] at hsolve
    exact respond_of_error hsolve
  | ok answer =>
    simp only [hreply] at hsolve
    exact respond_of_ok hsolve

/-! ### Sequences of operations -/

open Exchange

/-- **Operations.** After an operation that returns, the queue has what the log with this operation
says. -/
theorem Queues.perform {log : List Exchange} (hs : Queues s (acceptedSince isPut log))
    {op : Operation} {r : Response} (h : perform b op s = (r, t))
    (hreturns : r.isStopped = false) : Queues t (acceptedSince isPut (log ++ [(op, r)])) := by
  cases op with
  | solve limit =>
    have ht := hs.solve h hreturns
    cases hput : isPut (.solve limit, r) with
    | true =>
      rw [acceptedSince_of_kind hput]
      rwa [if_pos hput] at ht
    | false =>
      rw [acceptedSince_of_none hput rfl]
      rwa [if_neg (by simp [hput])] at ht
  | assume name op bound =>
    rw [acceptedSince_concat rfl]
    exact hs.assume h hreturns
  | commit =>
    rw [acceptedSince_of_none rfl rfl]
    cases hcommit : Session.commit b s with
    | ok x s₁ =>
      rw [Session.perform, respond_of_ok hcommit] at h
      cases h
      exact hs.commit_ok hcommit
    | error e s₁ =>
      rw [Session.perform, respond_of_error hcommit] at h
      cases h
      cases e with
      | fault f => cases hreturns
      | error e => exact hs.commit_error hcommit
  | addExprs es | isDeclared name | exprCount =>
    rw [acceptedSince_of_none rfl rfl]
    cases h
    exact ⟨hs.lits, hs.declared⟩

/-- **Sequences of operations.** The queue has what the log of all operations says. -/
theorem Queues.performAll {log : List Exchange} (hs : Queues s (acceptedSince isPut log))
    {ops : List Operation} {rs : List Response} (h : performAll b ops s = (rs, t))
    (hreturns : ∀ r ∈ rs, r.isStopped = false) :
    Queues t (acceptedSince isPut (log ++ ops.zip rs)) := by
  induction ops generalizing s log rs with
  | nil =>
    cases h
    rwa [List.zip_nil_left, List.append_nil]
  | cons op ops ih =>
    rw [performAll_cons] at h
    split_ifs at h with hstops
    · -- The run would end here, and it does not.
      cases h
      rw [hreturns _ (List.mem_singleton.2 rfl)] at hstops
      cases hstops
    · cases h
      obtain ⟨hfirst, hrest⟩ := List.forall_mem_cons.1 hreturns
      have hnext := ih (hs.perform rfl hfirst) rfl hrest
      rwa [List.append_assoc] at hnext

/-- **Assumptions hold until a question is put.** After any sequence of operations, the literals
that the session holds are those of the assumptions that were accepted after the last question that
was put.  If the next question reaches the backend, it is asked under exactly these, and none of
them is left after it. -/
theorem asked_under_accepted (b : Backend σ) (s₀ : σ) {s₁ : Session σ}
    (hstart : start b s₀ = .ok s₁) (ops : List Operation) {rs : List Response} {s : Session σ}
    (hrun : performAll b ops s₁ = (rs, s)) (hreturns : ∀ r ∈ rs, r.isStopped = false) :
    s.assumptions = (acceptedSince isPut (ops.zip rs)).flatMap (·.lits s.vars) ∧
    ∀ (limit : Option Nat) (t : Session σ), commit b s = .ok () t → t.contradiction = false →
      isBeyondClock limit = false →
      let lits := (acceptedSince isPut (ops.zip rs)).flatMap (·.lits t.vars)
      let reply := b.solve t.backend lits limit
      perform b (.solve limit) s =
        (.ofAnswer t.vars reply.1, { t with assumptions := [], backend := reply.2 }) := by
  obtain ⟨-, rfl⟩ := start_eq_ok hstart
  have hs : Queues s (acceptedSince isPut ([] ++ ops.zip rs)) :=
    Queues.performAll (queues_nil rfl) hrun hreturns
  rw [List.nil_append] at hs
  refine ⟨hs.lits, fun limit t hcommit hcontra hclock => ?_⟩
  rw [← (hs.commit_ok hcommit).lits]
  exact perform_solve_of_commit hcommit hcontra hclock

/-- A question that is put, one that fails at its batch, an assumption that is refused, and
assumptions that are accepted before, between and after them. -/
def keptOps : List Operation :=
  [.addExprs [.int "x" [0, 1, 2, 3]], .assume "x" .le 1, .solve none, .assume "x" .ge 1,
    .addExprs [.le "nope" 1], .solve none, .assume "y" .le 0, .assume "x" .le 2]

/-- The responses to these operations, and the session after them. -/
def keptRun : List Response × Session (List Clause) :=
  performAll .reference keptOps reference

/-- The first assumption is used up; the two others are in force at the next question. -/
theorem asked_under_accepted_kept :
    keptRun.1 = [.done, .done, .answered (.sat [("x", 1)]), .done, .done,
      .failed (.compile "(le nope 1)" (.undeclaredVariable "nope")),
      .failed (.undeclaredVariable "y"), .done] ∧
    acceptedSince isPut (keptOps.zip keptRun.1) = [⟨"x", .ge, 1⟩, ⟨"x", .le, 2⟩] ∧
    keptRun.2.assumptions = [⟨1, true⟩, ⟨3, false⟩] ∧
    (perform .reference (.solve none) keptRun.2).1 = .answered (.sat [("x", 2)]) := by
  have hresponses : keptRun.1 = [.done, .done, .answered (.sat [("x", 1)]), .done, .done,
      .failed (.compile "(le nope 1)" (.undeclaredVariable "nope")),
      .failed (.undeclaredVariable "y"), .done] := by cbv
  have hreturns : ∀ r ∈ keptRun.1, r.isStopped = false := by
    rw [hresponses]
    simp [Response.isStopped]
  have haccepted : acceptedSince isPut (keptOps.zip keptRun.1) =
      [⟨"x", .ge, 1⟩, ⟨"x", .le, 2⟩] := by cbv
  obtain ⟨hlits, hasked⟩ :=
    @asked_under_accepted _ .reference [] _ start_reference keptOps keptRun.1 keptRun.2 rfl hreturns
  rw [haccepted] at hlits hasked
  refine ⟨hresponses, haccepted, hlits.trans (by cbv), ?_⟩
  rw [hasked none keptRun.2 (by cbv) (by cbv) rfl]
  cbv

/-- An assumption, and a question that fails at its batch. -/
def failedOps : List Operation :=
  [.addExprs [.int "x" [0, 1, 2, 3]], .assume "x" .le 1, .addExprs [.le "nope" 1], .solve none]

/-- The responses to these operations, and the session after them. -/
def failedRun : List Response × Session (List Clause) :=
  performAll .reference failedOps reference

/-- **An assumption can outlive a question.** None is accepted after the question, but the one
before it is in force at the next question. -/
theorem assumption_outlives_question :
    failedRun.1 = [.done, .done, .done,
      .failed (.compile "(le nope 1)" (.undeclaredVariable "nope"))] ∧
    acceptedSince isQuestion (failedOps.zip failedRun.1) = [] ∧
    failedRun.2.assumptions = [⟨2, false⟩] ∧
    failedRun.2.assumptions ≠
      (acceptedSince isQuestion (failedOps.zip failedRun.1)).flatMap (·.lits failedRun.2.vars) ∧
    (perform .reference (.solve none) failedRun.2).1 = .answered (.sat [("x", 1)]) := by
  have hnone : acceptedSince isQuestion (failedOps.zip failedRun.1) = [] := by cbv
  have hkept : failedRun.2.assumptions = [⟨2, false⟩] := by cbv
  refine ⟨by cbv, hnone, hkept, ?_, by cbv⟩
  rw [hnone, hkept]
  simp

end Session

end WeightedCsp

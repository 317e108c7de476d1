import Mathlib
import WeightedCsp.Proofs.Csp.Session
import WeightedCsp.Proofs.Sat.Reference

/-!
# Sessions answer right

A user of a session keeps three lists: the expressions that wait, the expressions of the batches
that compiled, and the assumptions queued for the next question.  Each operation moves entries
between them according to its result (`History`), and `Run` is any sequence of operations, some of
which may fail.  After every run the session represents the lists (`Run.represents`), so every
outcome of a question is right for them.  A clause that the backend refuses ends this: the batch is
in the tables then, and the backend does not know all of it.
-/

namespace WeightedCsp

/-- What the user of a session has asked of it so far. -/
structure History where
  /-- The expressions that wait to be compiled. -/
  pending : List Expr
  /-- The expressions of the batches that compiled. -/
  committed : List Expr
  /-- The assumptions for the next question. -/
  queued : List Assumption
  /-- The backend has refused a clause, so it may not know all that is committed. -/
  refused : Bool

namespace History

/-- Nothing was asked. -/
def empty : History := ⟨[], [], [], false⟩

/-- The batch compiles. -/
def commit (h : History) : History :=
  { h with pending := [], committed := h.committed ++ h.pending }

/-- An operation fails.  An error of the compiler loses the batch; any other error comes after the
batch has compiled, and an error of the backend at a question after the assumptions were used. -/
def fail (e : SessionError) (h : History) : History :=
  match e with
  | .compile _ _ => { h with pending := [] }
  | .undeclaredVariable _ => h.commit
  | .backend _ => { h.commit with queued := [] }
  | .refused _ => { h.commit with refused := true }

/-- What was refused once is never made up for. -/
theorem refused_of_fail {e : SessionError} {h : History} (hwhole : (h.fail e).refused = false) :
    h.refused = false := by
  cases e with
  | refused message => cases hwhole
  | compile | undeclaredVariable | backend => exact hwhole

end History

namespace Session

variable {σ : Type}

/-- The session that a sequence of operations leads to, with its history. -/
inductive Run (b : Backend σ) (s₀ : σ) : Session σ → History → Prop
  /-- A new session. -/
  | start {s : Session σ} (hstart : Session.start b s₀ = .ok s) : Run b s₀ s History.empty
  /-- Expressions are queued. -/
  | addExprs {s : Session σ} {h : History} (es : List Expr) (hrun : Run b s₀ s h) :
    Run b s₀ (s.addExprs es) { h with pending := h.pending ++ es }
  /-- The queue is compiled. -/
  | commit {s s' : Session σ} {h : History} (hrun : Run b s₀ s h)
    (hstep : Session.commit b s = .ok () s') : Run b s₀ s' h.commit
  /-- The queue does not compile, or a clause of it is refused. -/
  | commitFails {s s' : Session σ} {h : History} {e : SessionError} (hrun : Run b s₀ s h)
    (hstep : Session.commit b s = .error (.error e) s') : Run b s₀ s' (h.fail e)
  /-- An assumption is queued. -/
  | assume {s s' : Session σ} {h : History} {name : String} {op : Comparator} {bound : Int}
    (hrun : Run b s₀ s h) (hstep : Session.assume b name op bound s = .ok () s') :
    Run b s₀ s' { h.commit with queued := h.queued ++ [⟨name, op, bound⟩] }
  /-- An assumption is refused. -/
  | assumeFails {s s' : Session σ} {h : History} {name : String} {op : Comparator} {bound : Int}
    {e : SessionError} (hrun : Run b s₀ s h)
    (hstep : Session.assume b name op bound s = .error (.error e) s') : Run b s₀ s' (h.fail e)
  /-- A question is answered. -/
  | solve {s s' : Session σ} {h : History} {limit : Option Nat} {outcome : Outcome}
    (hrun : Run b s₀ s h) (hstep : Session.solve b limit s = .ok outcome s') :
    Run b s₀ s' { h.commit with queued := [] }
  /-- A question fails. -/
  | solveFails {s s' : Session σ} {h : History} {limit : Option Nat} {e : SessionError}
    (hrun : Run b s₀ s h) (hstep : Session.solve b limit s = .error (.error e) s') :
    Run b s₀ s' (h.fail e)

/-! ### Variables are never taken back -/

/-- The second session uses at least the variables of the first. -/
def NextLe (s s' : Session σ) : Prop := s.next ≤ s'.next

/-- No variable comes back from one state to the next, and so none from the first to the last. -/
theorem NextLe.trans {s s' s'' : Session σ} (h₁ : NextLe s s') (h₂ : NextLe s' s'') :
    NextLe s s'' := Nat.le_trans h₁ h₂

/-- There was room before if there is room now. -/
theorem NextLe.room {s s' : Session σ} (h : NextLe s s') {n : Nat} (hroom : s'.next ≤ n) :
    s.next ≤ n := Nat.le_trans h hroom

section Next

variable (b : Backend σ)

theorem nextLe_of_after_eq {ε α : Type} {x : Step ε (Session σ) α} (h : ∀ s, x.after s = s) :
    x.Follows NextLe := Step.follows_of_after_eq (fun _ => Nat.le_refl _) h

/-- A commit takes no variable back. -/
theorem nextLe_commit : (commit b).Follows NextLe := by
  intro s
  cases h : commit b s with
  | ok x s' =>
    rw [Step.after_of_ok h]
    rcases commit_eq_ok h with ⟨-, rfl⟩ | ⟨t, r, hcompile, -, rfl⟩
    · exact Nat.le_refl _
    · exact (grows_compileAll hcompile).cnf.next_le
  | error e s' =>
    rw [Step.after_of_error h]
    cases e with
    | fault f =>
      obtain ⟨t, hcompile, rfl⟩ := commit_eq_fault h
      exact next_le_of_compileAll_error hcompile
    | error e =>
      rcases commit_eq_error h with ⟨-, -, t, -, hcompile, rfl⟩ | ⟨-, t, r, -, hcompile, -, rfl⟩
      · exact next_le_of_compileAll_error hcompile
      · exact (grows_compileAll hcompile).cnf.next_le

/-- An assumption takes no variable back. -/
theorem nextLe_assume (name : String) (op : Comparator) (bound : Int) :
    (assume b name op bound).Follows NextLe := by
  refine (nextLe_commit b).bind NextLe.trans fun _ => ?_
  refine (nextLe_of_after_eq Step.after_get).bind NextLe.trans fun t => ?_
  split
  · exact nextLe_of_after_eq (Step.after_fail _)
  · refine (nextLe_of_after_eq (Step.after_checked _)).bind NextLe.trans fun atoms => ?_
    exact fun s => Nat.le_refl _

/-- A question takes no variable back. -/
theorem nextLe_solve (limit : Option Nat) : (solve b limit).Follows NextLe := by
  refine (nextLe_commit b).bind NextLe.trans fun _ s => ?_
  unfold Step.after
  simp only
  split_ifs
  · exact Nat.le_refl _
  · exact Nat.le_refl _
  · cases (b.solve s.backend s.assumptions limit).1 with
    | error message => exact Nat.le_refl _
    | ok answer => cases answer <;> exact Nat.le_refl _

end Next

/-! ### Runs -/

/-- **Runs.** After every run in which no clause was refused, the session represents its history. -/
theorem Run.represents {b : Backend σ} {clauses : σ → List Clause} (hb : b.Sound clauses) {s₀ : σ}
    (h₀ : clauses s₀ = []) {s : Session σ} {h : History} (hrun : Run b s₀ s h)
    (hwhole : h.refused = false) (hroom : s.next ≤ Lit.varLimit) :
    s.pending = h.pending ∧ Represents clauses s h.committed h.queued := by
  -- By induction on the run: each session before has room too, as variables are never taken back.
  induction hrun with
  | start hstart =>
    refine ⟨?_, start_represents hb h₀ hstart⟩
    obtain ⟨-, rfl⟩ := start_eq_ok hstart
    rfl
  | addExprs es _ ih =>
    obtain ⟨hpending, hs⟩ := ih hwhole hroom
    refine ⟨?_, hs.congr rfl (Nat.le_refl _) rfl rfl rfl rfl⟩
    show _ ++ es = _ ++ es
    rw [hpending]
  | commit _ hstep ih =>
    obtain ⟨hpending, hs⟩ := ih hwhole (((nextLe_commit b).ok hstep).room hroom)
    obtain ⟨hs', hnone, -⟩ := commit_represents hb hs hstep hroom
    rw [hpending] at hs'
    exact ⟨hnone, hs'⟩
  | commitFails _ hstep ih =>
    obtain ⟨hpending, hs⟩ :=
      ih (History.refused_of_fail hwhole) (((nextLe_commit b).error hstep).room hroom)
    obtain ⟨hnone, ⟨⟨text, cause, rfl⟩, hs'⟩ | ⟨message, rfl⟩⟩ := commit_error_represents hs hstep
    · exact ⟨hnone, hs'⟩
    · cases hwhole
  | assume _ hstep ih =>
    obtain ⟨hpending, hs⟩ := ih hwhole (((nextLe_assume b _ _ _).ok hstep).room hroom)
    obtain ⟨hs', hnone⟩ := assume_represents hb hs hstep hroom
    rw [hpending] at hs'
    exact ⟨hnone, hs'⟩
  | assumeFails _ hstep ih =>
    obtain ⟨hpending, hs⟩ :=
      ih (History.refused_of_fail hwhole) (((nextLe_assume b _ _ _).error hstep).room hroom)
    obtain ⟨hnone, ⟨⟨text, cause, rfl⟩, hs'⟩ | ⟨rfl, hs'⟩ | ⟨message, rfl⟩⟩ :=
      assume_error_represents hb hs hstep hroom
    · exact ⟨hnone, hs'⟩
    · rw [hpending] at hs'
      exact ⟨hnone, hs'⟩
    · cases hwhole
  | solve _ hstep ih =>
    obtain ⟨hpending, hs⟩ := ih hwhole (((nextLe_solve b _).ok hstep).room hroom)
    obtain ⟨hs', hnone, -⟩ := solve_represents hb hs hstep hroom
    rw [hpending] at hs'
    exact ⟨hnone, hs'⟩
  | solveFails _ hstep ih =>
    obtain ⟨hpending, hs⟩ :=
      ih (History.refused_of_fail hwhole) (((nextLe_solve b _).error hstep).room hroom)
    obtain ⟨hnone, ⟨⟨text, cause, rfl⟩, hs'⟩ | ⟨⟨message, rfl⟩, hs'⟩ | ⟨message, rfl⟩⟩ :=
      solve_error_represents hb hs hstep hroom
    · exact ⟨hnone, hs'⟩
    · rw [hpending] at hs'
      exact ⟨hnone, hs'⟩
    · cases hwhole

/-- A backend that refuses no clause has refused none. -/
theorem Run.refused_eq_false {b : Backend σ} (hb : b.Accepting) {s₀ : σ} {s : Session σ}
    {h : History} (hrun : Run b s₀ s h) : h.refused = false := by
  induction hrun with
  | start => rfl
  | addExprs _ _ ih | commit _ _ ih | assume _ _ ih | solve _ _ ih => exact ih
  | commitFails _ hstep ih =>
    obtain ⟨text, cause, rfl⟩ := commit_error_compile hb hstep
    exact ih
  | assumeFails _ hstep ih =>
    rcases assume_eq_error hstep with hcommit | ⟨-, -, rfl⟩
    · obtain ⟨text, cause, rfl⟩ := commit_error_compile hb hcommit
      exact ih
    · exact ih
  | solveFails _ hstep ih =>
    rcases solve_eq_error hstep with hcommit | ⟨-, message, -, rfl, -⟩
    · obtain ⟨text, cause, rfl⟩ := commit_error_compile hb hcommit
      exact ih
    · exact ih

/-- **Sessions answer right.** After any sequence of operations on a sound backend, in which no
clause was refused, a question that is answered with a solution has one for all the expressions of
the batches that compiled and all the assumptions queued for it; and if it is answered without, then
no values satisfy them. -/
theorem solve_rightFor_history {b : Backend σ} {clauses : σ → List Clause} (hb : b.Sound clauses)
    {s₀ : σ} (h₀ : clauses s₀ = []) {s s' : Session σ} {h : History} (hrun : Run b s₀ s h)
    (hwhole : h.refused = false) {limit : Option Nat} {outcome : Outcome}
    (hsolve : solve b limit s = .ok outcome s') (hroom : s'.next ≤ Lit.varLimit) :
    outcome.RightFor h.commit.committed h.queued := by
  obtain ⟨hpending, hs⟩ := hrun.represents hb h₀ hwhole (((nextLe_solve b _).ok hsolve).room hroom)
  obtain ⟨-, -, hright⟩ := solve_represents hb hs hsolve hroom
  rw [hpending] at hright
  exact hright

/-- A new session on the reference backend. -/
def reference : Session (List Clause) := fresh [[topLit]]

/-- The reference backend refuses nothing, so a session can be opened on it. -/
theorem start_reference : start .reference [] = .ok reference := rfl

/-- Two different variables with an implication between them. -/
def pairExprs : List Expr :=
  [.int "x" [3, 1, 2], .labeled "second" (.int "y" [1, 2, 3]), .allDifferent ["x", "y"],
    .imp (.le "x" 2) (.not (.ge "y" 3))]

/-- The session with the two variables queued. -/
def pairSession : Session (List Clause) := reference.addExprs pairExprs

theorem solve_rightFor_pair :
    Outcome.RightFor pairExprs [⟨"x", .ge, 2⟩] (.sat [("x", 3), ("y", 2)]) :=
  have hassume : (assume .reference "x" .ge 2).result? pairSession = some () := by cbv
  have hsolve : (solve .reference none).result? ((assume .reference "x" .ge 2).after pairSession) =
      some (.sat [("x", 3), ("y", 2)]) := by cbv
  solve_rightFor_history Backend.reference_sound rfl
    (.assume (.addExprs pairExprs (.start start_reference)) (Step.eq_ok_of_result? hassume)) rfl
    (Step.eq_ok_of_result? hsolve) (by cbv)

end Session

end WeightedCsp

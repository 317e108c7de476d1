import WeightedCsp.Csp.Session
import WeightedCsp.Proofs.Csp.Entries

/-!
# Compiling and sending a batch

A batch is compiled one expression after the other, and then its clauses are sent.  It can end in
three ways: everything is compiled and sent (`Session.commit_eq_ok`), an expression does not compile
and the tables are rolled back to those before the batch, or the backend refuses a clause and the
rest is not sent, though the tables hold the batch (`Session.commit_eq_error`).
-/

namespace WeightedCsp

namespace Session

variable {σ : Type}

/-! ### Compiling a batch -/

/-- The failure of a batch for the failure of one of its expressions. -/
def reported (e : Expr) : Failure CompileError → Failure SessionError
  | .fault f => .fault f
  | .error cause =>
    match e.text with
    | .ok text => .error (.compile text cause)
    | .error f => .fault f

/-- The tables that the failure of an expression leaves.  An error takes back what was entered; a
fault does not come to that. -/
def leftBy : Failure CompileError → Tables → Tables
  | .fault _, t => t
  | .error _, t => t.rollback

@[simp]
theorem cnf_leftBy (f : Failure CompileError) (t : Tables) : (leftBy f t).cnf = t.cnf := by
  cases f <;> rfl

/-- A batch is compiled expression by expression. -/
theorem compileAll_cons (e : Expr) (es : List Expr) (t : Tables) :
    compileAll (e :: es) t =
      match Compiler.compile e t with
      | .ok _ u => compileAll es u
      | .error f u => .error (reported e f) (leftBy f u) := by
  simp only [compileAll]
  cases Compiler.compile e t with
  | ok x u => rfl
  | error f u =>
    cases f with
    | fault f => rfl
    | error cause =>
      simp only [reported, leftBy]
      cases e.text <;> rfl

theorem compileAll_cons_eq_ok {e : Expr} {es : List Expr} {t u : Tables} {x : Unit}
    (h : compileAll (e :: es) t = .ok x u) :
    ∃ y t₁, Compiler.compile e t = .ok y t₁ ∧ compileAll es t₁ = .ok x u := by
  rw [compileAll_cons] at h
  cases hc : Compiler.compile e t with
  | ok y t₁ =>
    rw [hc] at h
    exact ⟨y, t₁, rfl, h⟩
  | error f t₁ =>
    rw [hc] at h
    cases h

/-- What is reported of an expression names its cause. -/
theorem reported_eq_error {e : Expr} {f : Failure CompileError} {r : SessionError}
    (h : reported e f = .error r) : ∃ text cause, f = .error cause ∧ r = .compile text cause := by
  cases f with
  | fault f => cases h
  | error cause =>
    unfold reported at h
    cases htext : e.text with
    | ok text =>
      simp only [htext] at h
      cases h
      exact ⟨text, cause, rfl, rfl⟩
    | error f =>
      simp only [htext] at h
      cases h

/-- A batch that fails fails at its first expression, or after that. -/
theorem compileAll_cons_eq_error {e : Expr} {es : List Expr} {t u : Tables} {r : SessionError}
    (h : compileAll (e :: es) t = .error (.error r) u) :
    (∃ text cause w, Compiler.compile e t = .error (.error cause) w ∧ u = w.rollback ∧
        r = .compile text cause) ∨
      ∃ t₁, Compiler.compile e t = .ok () t₁ ∧ compileAll es t₁ = .error (.error r) u := by
  rw [compileAll_cons] at h
  cases hc : Compiler.compile e t with
  | ok y t₁ =>
    rw [hc] at h
    exact .inr ⟨t₁, rfl, h⟩
  | error f t₁ =>
    rw [hc] at h
    obtain ⟨hr, rfl⟩ := EStateM.Result.error.inj h
    obtain ⟨text, cause, rfl, rfl⟩ := reported_eq_error hr
    exact .inl ⟨text, cause, t₁, rfl, rfl, rfl⟩

/-- Nothing is taken out of the tables by a batch that compiles. -/
theorem grows_compileAll {es : List Expr} {t u : Tables} {x : Unit}
    (h : compileAll es t = .ok x u) : t.Grows u := by
  induction es generalizing t with
  | nil =>
    obtain ⟨-, rfl⟩ := Step.pure_eq_ok.1 h
    exact .refl t
  | cons e es ih =>
    obtain ⟨y, t₁, he, hes⟩ := compileAll_cons_eq_ok h
    exact ((Compiler.growing_compile e).ok he).trans (ih hes)

/-- The clauses and variables that a batch has made stay, even if it fails. -/
theorem growing_cnf_compileAll : ∀ es : List Expr,
    (compileAll es).Follows fun t u => t.cnf.Grows u.cnf
  | [] => Step.follows_of_after_eq (fun t => .refl t.cnf) (Step.after_pure _)
  | e :: es => by
    intro t
    have hg := (Compiler.growing_compile e t).cnf
    unfold Step.after at hg ⊢
    rw [compileAll_cons]
    cases hc : Compiler.compile e t with
    | ok y t₁ =>
      rw [hc] at hg
      exact hg.trans (growing_cnf_compileAll es t₁)
    | error f t₁ =>
      rw [hc] at hg
      simpa only [cnf_leftBy] using hg

/-- **What a batch enters.** A batch that compiles enters no names but those that its expressions
declare, and makes no entry where there is one. -/
theorem enters_compileAll {es : List Expr} {t u : Tables} {x : Unit}
    (h : compileAll es t = .ok x u) : Tables.Enters (Expr.declaredBy es) t u := by
  induction es generalizing t with
  | nil =>
    obtain ⟨-, rfl⟩ := Step.pure_eq_ok.1 h
    exact .refl _ t
  | cons e es ih =>
    obtain ⟨y, t₁, he, hes⟩ := compileAll_cons_eq_ok h
    rw [Expr.declaredBy_cons]
    exact (((Compiler.entering_compile e).ok he).mono (List.subset_append_left _ _)).trans
      ((ih hes).mono (List.subset_append_right _ _))

/-- The names of tables that a batch has entered something into. -/
theorem names_of_enters {names : List String} {t u : Tables} (h : Tables.Enters names t u) :
    ∀ p ∈ u.vars, p.1 ∈ t.vars.map (·.1) ∨ p.1 ∈ names := by
  obtain ⟨added, hvars, -, hadded⟩ := h.vars
  rw [hvars]
  intro p hp
  rcases List.mem_append.1 hp with hp | hp
  · exact .inr (hadded p hp).1
  · exact .inl (List.mem_map_of_mem hp)

/-- However a batch ends, the names in the tables were there before, or it declares them. -/
theorem names_compileAll (es : List Expr) (t : Tables) :
    ∀ p ∈ ((compileAll es).after t).vars,
      p.1 ∈ t.vars.map (·.1) ∨ p.1 ∈ Expr.declaredBy es := by
  induction es generalizing t with
  | nil => exact fun p hp => .inl (List.mem_map_of_mem hp)
  | cons e es ih =>
    have hfirst := names_of_enters (Compiler.entering_compile e t)
    unfold Step.after at hfirst ih ⊢
    rw [compileAll_cons, Expr.declaredBy_cons]
    cases hc : Compiler.compile e t with
    | ok y t₁ =>
      intro p hp
      simp only [hc] at hfirst
      rcases ih t₁ p hp with hold | hnew
      · obtain ⟨q, hq, heq⟩ := List.mem_map.1 hold
        rw [← heq]
        exact (hfirst q hq).imp_right (List.mem_append_left _)
      · exact .inr (List.mem_append_right _ hnew)
    | error f t₁ =>
      intro p hp
      simp only [hc] at hfirst
      have hp₁ : p ∈ t₁.vars := by
        cases f with
        | fault f => exact hp
        | error cause =>
          have hrolled : p ∈ t₁.undo.vars.foldl removeKey t₁.vars := hp
          rw [foldl_removeKey] at hrolled
          exact (List.mem_filter.1 hrolled).1
      exact (hfirst p hp₁).imp_right (List.mem_append_left _)

/-- **Batches that fail.** The failure strikes somewhere in the batch, where the log has got the
keys of all that the batch has entered so far; these entries are taken back. -/
theorem compileAll_eq_error {es : List Expr} {t u : Tables} {e : SessionError}
    (h : compileAll es t = .error (.error e) u) :
    ∃ text cause w, e = .compile text cause ∧ Tables.Enters (Expr.declaredBy es) t w ∧
      u = w.rollback := by
  induction es generalizing t with
  | nil => exact absurd h (by simp [compileAll])
  | cons f es ih =>
    rw [Expr.declaredBy_cons]
    rcases compileAll_cons_eq_error h with ⟨text, cause, w, hc, rfl, rfl⟩ | ⟨t₁, hc, hrest⟩
    · exact ⟨text, cause, w, rfl,
        ((Compiler.entering_compile f).error hc).mono (List.subset_append_left _ _), rfl⟩
    · -- The entries of the expressions before the failing one are in the log as well.
      obtain ⟨text, cause, w, rfl, hw, rfl⟩ := ih hrest
      exact ⟨text, cause, w, rfl,
        (((Compiler.entering_compile f).ok hc).mono (List.subset_append_left _ _)).trans
          (hw.mono (List.subset_append_right _ _)), rfl⟩

/-- If the log is empty before a batch that fails, only clauses and variables are left of it. -/
theorem compileAll_error_eq {es : List Expr} {t u : Tables} {e : SessionError}
    (h : compileAll es t = .error (.error e) u) (hlog : t.undo = {}) :
    u = { t with cnf := u.cnf } := by
  obtain ⟨text, cause, w, -, hw, rfl⟩ := compileAll_eq_error h
  rw [hw.rollback hlog]

/-- **Batches.** The clauses of a batch demand all its expressions, and nothing else. -/
theorem compileAll_compiles {es : List Expr} {t u : Tables} {x : Unit}
    (h : compileAll es t = .ok x u) (ht : t.WellFormed) (hroom : u.cnf.next ≤ Lit.varLimit)
    (value : String → Int) :
    Compiles value t u (fun _ => Expr.AllHold value es) (fun _ => Expr.AllHold value es)
      fun _ => True := by
  induction es generalizing t with
  | nil =>
    obtain ⟨-, rfl⟩ := Step.pure_eq_ok.1 h
    refine .refl ht ?_ ?_
    · exact fun _ _ _ => trivial
    · exact fun _ _ _ _ => trivial
  | cons e es ih =>
    obtain ⟨y, t₁, he, hes⟩ := compileAll_cons_eq_ok h
    have hle := (grows_compileAll hes).cnf.next_le
    have hcomp := Compiler.compile_compiles he ht (hle.trans hroom)
    exact (hcomp value).demandBoth (ih hes (hcomp value).wellFormed)

/-- What a batch declares is in the tables. -/
theorem declared_compileAll {es : List Expr} {t u : Tables} {x : Unit}
    (h : compileAll es t = .ok x u) :
    ∀ e ∈ es, ∀ name values, e.unlabeled = .int name values → name ∈ u.vars.map (·.1) := by
  induction es generalizing t with
  | nil => simp
  | cons e es ih =>
    obtain ⟨y, t₁, he, hes⟩ := compileAll_cons_eq_ok h
    refine List.forall_mem_cons.2 ⟨fun name values heq => ?_, ih hes⟩
    have hdeclare : Compiler.declare name values t = .ok y t₁ := by
      rwa [Compiler.compile_nnf, heq] at he
    have hmem : name ∈ t₁.vars.map (·.1) := by
      rcases Compiler.declare_eq_ok hdeclare with ⟨z, hz, -, rfl⟩ | ⟨-, z, cnf, -, rfl⟩
      · exact List.mem_map.2 ⟨_, hz, rfl⟩
      · simp
    exact ((grows_compileAll hes).vars.map _).subset hmem

/-! ### Sending clauses -/

/-- The clauses that were sent; the mark of a contradiction stands for the empty clause. -/
def sent (clauses : σ → List Clause) (r : σ × Bool) : List Clause :=
  clauses r.1 ++ if r.2 then [[]] else []

section Flush

variable {b : Backend σ} {clauses : σ → List Clause} {cs : List Clause} {r r' : σ × Bool}

/-- Clauses that are received are received one by one. -/
theorem flush_cons_eq_ok {c : Clause} (hc : c ≠ []) {x : Unit}
    (h : flush b (c :: cs) r = .ok x r') :
    (b.add r.1 c).1 = .ok () ∧ flush b cs ((b.add r.1 c).2, r.2) = .ok x r' := by
  obtain ⟨s, mark⟩ := r
  rw [flush] at h
  · split at h
    · next u t hadd =>
      rw [hadd]
      exact ⟨rfl, h⟩
    · cases h
  · exact hc

/-- What is sent is what was sent before and the new clauses. -/
theorem mem_sent_flush (hb : b.Sound clauses) {x : Unit} (h : flush b cs r = .ok x r')
    {c : Clause} : c ∈ sent clauses r' ↔ c ∈ sent clauses r ∨ c ∈ cs := by
  induction cs generalizing r with
  | nil =>
    cases h
    simp
  | cons d cs ih =>
    cases d with
    | nil =>
      obtain ⟨s, mark⟩ := r
      rw [flush] at h
      rw [ih h]
      cases mark <;> simp [sent] <;> tauto
    | cons l d =>
      obtain ⟨hadd, hrest⟩ := flush_cons_eq_ok (List.cons_ne_nil l d) h
      rw [ih hrest]
      simp only [sent, hb.add _ _ hadd, List.mem_append, List.mem_cons, List.not_mem_nil, or_false]
      tauto

/-- Clauses of a batch are satisfied together with those sent before. -/
theorem satisfies_sent_flush (hb : b.Sound clauses) {x : Unit} (h : flush b cs r = .ok x r')
    {v : Valuation} : v.Satisfies (sent clauses r') ↔
      v.Satisfies (sent clauses r) ∧ v.Satisfies cs := by
  simp only [Valuation.Satisfies, mem_sent_flush hb h]
  constructor
  · intro h
    exact ⟨fun c hc => h c (.inl hc), fun c hc => h c (.inr hc)⟩
  · rintro ⟨h₁, h₂⟩ c (hc | hc)
    · exact h₁ c hc
    · exact h₂ c hc

/-- The mark of a contradiction is set where an empty clause was to be sent. -/
theorem mark_flush {x : Unit} (h : flush b cs r = .ok x r') :
    r'.2 = (r.2 || cs.any (·.isEmpty)) := by
  induction cs generalizing r with
  | nil =>
    cases h
    simp
  | cons d cs ih =>
    cases d with
    | nil =>
      obtain ⟨s, mark⟩ := r
      rw [flush] at h
      rw [ih h]
      simp
    | cons l d =>
      obtain ⟨-, hrest⟩ := flush_cons_eq_ok (List.cons_ne_nil l d) h
      rw [ih hrest]
      simp

/-- Where no clause is refused, all are sent. -/
theorem exists_flush (hb : b.Accepting) (cs : List Clause) (r : σ × Bool) :
    ∃ r', flush b cs r = .ok () r' := by
  induction cs generalizing r with
  | nil => exact ⟨r, rfl⟩
  | cons c cs ih =>
    obtain ⟨s, mark⟩ := r
    cases c with
    | nil =>
      rw [flush]
      exact ih _
    | cons l c =>
      obtain ⟨r', hr'⟩ := ih ((b.add s (l :: c)).2, mark)
      refine ⟨r', ?_⟩
      rw [flush]
      · split
        · next u t hadd =>
          rw [hadd] at hr'
          exact hr'
        · next message t hadd =>
          have hok := hb s (l :: c)
          rw [hadd] at hok
          cases hok
      · simp

end Flush

/-! ### The three ends of a batch -/

variable {b : Backend σ} {s s' : Session σ}

/-- The session after a batch that is in the tables, with what its clauses have made of the
backend. -/
def withBatch (t : Tables) (r : σ × Bool) (s : Session σ) : Session σ where
  backend := r.1
  next := t.cnf.next
  vars := t.vars
  atoms := t.atoms
  undo := {}
  pending := []
  assumptions := s.assumptions
  contradiction := r.2
  exprCount := s.exprCount + s.pending.length

/-- The session after a batch that did not compile. -/
def withoutBatch (next : Nat) (s : Session σ) : Session σ :=
  { s with next := next, undo := {}, pending := [] }

/-- With nothing pending, a commit does nothing. -/
theorem commit_of_nil (h : s.pending = []) : commit b s = .ok () s := by
  simp [commit, h]

/-- A batch that compiles is in the tables, whatever comes of its clauses. -/
theorem commit_of_ok (hne : s.pending ≠ []) {t : Tables} {x : Unit}
    (h : compileAll s.pending s.tables = .ok x t) :
    commit b s = match flush b t.cnf.clauses.toList (s.backend, s.contradiction) with
      | .ok _ r => .ok () (s.withBatch t r)
      | .error message r => .error (.error (.refused message)) (s.withBatch t r) := by
  simp only [commit, List.isEmpty_iff, hne, if_false, h]
  rfl

/-- A batch that fails with an error leaves everything but variables as it was. -/
theorem commit_of_error (hne : s.pending ≠ []) {t : Tables} {e : SessionError}
    (h : compileAll s.pending s.tables = .error (.error e) t) :
    commit b s = .error (.error e) (s.withoutBatch t.cnf.next) := by
  simp only [commit, List.isEmpty_iff, hne, if_false, h]
  rw [compileAll_error_eq h rfl]
  rfl

/-- A fault in the batch ends the commit, with nothing sent. -/
theorem commit_of_fault (hne : s.pending ≠ []) {t : Tables} {f : Fault}
    (h : compileAll s.pending s.tables = .error (.fault f) t) :
    commit b s = .error (.fault f) (s.withTables t) := by
  simp only [commit, List.isEmpty_iff, hne, if_false, h]

/-- A batch that is committed was empty, or it is compiled and all of it is sent. -/
theorem commit_eq_ok {x : Unit} (h : commit b s = .ok x s') :
    s.pending = [] ∧ s' = s ∨ ∃ t r, compileAll s.pending s.tables = .ok () t ∧
      flush b t.cnf.clauses.toList (s.backend, s.contradiction) = .ok () r ∧
      s' = s.withBatch t r := by
  by_cases hne : s.pending = []
  · rw [commit_of_nil hne] at h
    cases h
    exact .inl ⟨hne, rfl⟩
  cases hc : compileAll s.pending s.tables with
  | ok y t =>
    rw [commit_of_ok hne hc] at h
    split at h
    · next u r hr =>
      cases h
      exact .inr ⟨t, r, rfl, hr, rfl⟩
    · cases h
  | error e t =>
    cases e with
    | fault f =>
      rw [commit_of_fault hne hc] at h
      cases h
    | error e =>
      rw [commit_of_error hne hc] at h
      cases h

/-- A batch that fails does not compile, and is rolled back, or the backend refuses one of its
clauses. -/
theorem commit_eq_error {e : SessionError} (h : commit b s = .error (.error e) s') :
    (∃ text cause t, e = .compile text cause ∧
        compileAll s.pending s.tables = .error (.error e) t ∧ s' = s.withoutBatch t.cnf.next) ∨
      ∃ message t r, e = .refused message ∧ compileAll s.pending s.tables = .ok () t ∧
        flush b t.cnf.clauses.toList (s.backend, s.contradiction) = .error message r ∧
        s' = s.withBatch t r := by
  by_cases hne : s.pending = []
  · rw [commit_of_nil hne] at h
    cases h
  cases hc : compileAll s.pending s.tables with
  | ok y t =>
    rw [commit_of_ok hne hc] at h
    split at h
    · cases h
    · next message r hr =>
      cases h
      exact .inr ⟨message, t, r, rfl, rfl, hr, rfl⟩
  | error f t =>
    cases f with
    | fault f =>
      rw [commit_of_fault hne hc] at h
      cases h
    | error e' =>
      rw [commit_of_error hne hc] at h
      cases h
      obtain ⟨text, cause, w, rfl, -, -⟩ := compileAll_eq_error hc
      exact .inl ⟨text, cause, t, rfl, rfl, rfl⟩

/-- A fault of a commit is a fault in its batch. -/
theorem commit_eq_fault {f : Fault} (h : commit b s = .error (.fault f) s') :
    ∃ t, compileAll s.pending s.tables = .error (.fault f) t ∧ s' = s.withTables t := by
  by_cases hne : s.pending = []
  · rw [commit_of_nil hne] at h
    cases h
  cases hc : compileAll s.pending s.tables with
  | ok y t =>
    rw [commit_of_ok hne hc] at h
    split at h <;> cases h
  | error e t =>
    cases e with
    | fault f =>
      rw [commit_of_fault hne hc] at h
      cases h
      exact ⟨t, rfl, rfl⟩
    | error e =>
      rw [commit_of_error hne hc] at h
      cases h

/-- Where no clause is refused, a batch fails with an error of the compiler only. -/
theorem commit_error_compile (hb : b.Accepting) {e : SessionError}
    (h : commit b s = .error (.error e) s') : ∃ text cause, e = .compile text cause := by
  rcases commit_eq_error h with ⟨text, cause, t, rfl, -⟩ | ⟨message, t, r, -, -, hflush, -⟩
  · exact ⟨text, cause, rfl⟩
  · obtain ⟨r', hr'⟩ := exists_flush hb t.cnf.clauses.toList (s.backend, s.contradiction)
    rw [hr'] at hflush
    cases hflush

/-- After a batch nothing waits, however it ends. -/
theorem pending_commit (b : Backend σ) (s : Session σ) : ((commit b).after s).pending = [] := by
  cases h : commit b s with
  | ok x t =>
    rw [Step.after_of_ok h]
    rcases commit_eq_ok h with ⟨hpending, rfl⟩ | ⟨u, r, -, -, rfl⟩
    · exact hpending
    · rfl
  | error e t =>
    rw [Step.after_of_error h]
    cases e with
    | fault f =>
      obtain ⟨u, -, rfl⟩ := commit_eq_fault h
      rfl
    | error e =>
      rcases commit_eq_error h with ⟨-, -, u, -, -, rfl⟩ | ⟨-, u, r, -, -, -, rfl⟩ <;> rfl

/-- However a batch ends, the declared names were declared before, or it declares them. -/
theorem names_commit (b : Backend σ) (s : Session σ) :
    ∀ p ∈ ((commit b).after s).vars,
      p.1 ∈ s.vars.map (·.1) ∨ p.1 ∈ Expr.declaredBy s.pending := by
  have hbatch := names_compileAll s.pending s.tables
  have hvars : ((commit b).after s).vars = s.vars ∨
      ((commit b).after s).vars = ((compileAll s.pending).after s.tables).vars := by
    cases h : commit b s with
    | ok x t =>
      rw [Step.after_of_ok h]
      rcases commit_eq_ok h with ⟨-, rfl⟩ | ⟨u, r, hu, -, rfl⟩
      · exact .inl rfl
      · exact .inr (by rw [Step.after_of_ok hu]; rfl)
    | error e t =>
      rw [Step.after_of_error h]
      cases e with
      | fault f =>
        obtain ⟨u, hu, rfl⟩ := commit_eq_fault h
        exact .inr (by rw [Step.after_of_error hu]; rfl)
      | error e =>
        rcases commit_eq_error h with ⟨-, -, u, -, -, rfl⟩ | ⟨-, u, r, -, hu, -, rfl⟩
        · exact .inl rfl
        · exact .inr (by rw [Step.after_of_ok hu]; rfl)
  intro p hp
  rcases hvars with heq | heq
  · rw [heq] at hp
    exact .inl (List.mem_map_of_mem hp)
  · rw [heq] at hp
    exact hbatch p hp

/-- A batch that is committed leaves an empty log. -/
theorem undo_of_commit_ok (hs : s.undo = {}) {x : Unit} (h : commit b s = .ok x s') :
    s'.undo = {} := by
  rcases commit_eq_ok h with ⟨-, rfl⟩ | ⟨u, r, -, -, rfl⟩
  · exact hs
  · rfl

/-- A batch that fails leaves an empty log. -/
theorem undo_of_commit_error {e : SessionError} (h : commit b s = .error (.error e) s') :
    s'.undo = {} := by
  rcases commit_eq_error h with ⟨-, -, u, -, -, rfl⟩ | ⟨-, u, r, -, -, -, rfl⟩ <;> rfl

/-- A name that is declared keeps its encoding when others are entered in front of it. -/
theorem lookup_of_enters {names : List String} {t u : Tables} (h : Tables.Enters names t u)
    {name : String} (hname : name ∈ t.vars.map (·.1)) :
    u.vars.lookup name = t.vars.lookup name ∧ name ∈ u.vars.map (·.1) := by
  obtain ⟨added, hvars, -, hadded⟩ := h.vars
  have hnone : added.lookup name = none := by
    rw [List.lookup_eq_none_iff]
    intro p hp
    rw [bne_iff_ne]
    rintro rfl
    exact (hadded p hp).2 hname
  rw [hvars, List.lookup_append, hnone, Option.none_or, List.map_append]
  exact ⟨rfl, List.mem_append_right _ hname⟩

end Session

end WeightedCsp

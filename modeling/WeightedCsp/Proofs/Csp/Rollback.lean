import Mathlib
import WeightedCsp.Proofs.Csp.History
import WeightedCsp.Proofs.Csp.Shifting

/-!
# A batch that fails takes no effect

When a batch does not compile, the entries that it has made are taken back by its log, and the
session is left with everything but the fresh variables that the batch has used up.  From then on
its user cannot tell it from a session in which the batch was never queued: `Shadows` relates the
two sessions, whose later variables differ by a shift, each operation keeps the relation
(`Shadows.perform`), and so does every sequence of operations (`Shadows.performAll`).  The responses
are the same errors, the same declared names and the same verdicts, whenever the backend reaches a
verdict (`Response.Agrees`).
-/

namespace WeightedCsp

/-- An operation of the user of a session. -/
inductive Operation where
  /-- Queues expressions. -/
  | addExprs (es : List Expr)
  /-- Compiles the queue. -/
  | commit
  /-- Queues an assumption. -/
  | assume (name : String) (op : Comparator) (bound : Int)
  /-- Asks for a solution. -/
  | solve (limit : Option Nat)
  /-- Asks whether a variable is declared. -/
  | isDeclared (name : String)
  /-- Asks for the number of compiled expressions. -/
  | exprCount

/-- What the user is told. -/
inductive Response where
  | done
  | answered (outcome : Outcome)
  | declared (answer : Bool)
  | counted (n : Nat)
  | failed (e : SessionError)
  | stopped (f : Fault)

namespace Response

/-- The response to an operation that fails. -/
def ofFailure : Failure SessionError → Response
  | .error e => .failed e
  | .fault f => .stopped f

/-- The operation did not return. -/
def isStopped : Response → Bool
  | .stopped _ => true
  | _ => false

/-- The backend was asked and gave no verdict. -/
def Undecided : Response → Prop
  | .answered .interrupted => True
  | .failed (.backend _) => True
  | _ => False

/-- The backend was asked. -/
def Asked : Response → Prop
  | .answered _ => True
  | .failed (.backend _) => True
  | _ => False

/-- The responses are the same, up to the values of a solution and to whether the backend reaches a
verdict. -/
inductive Agrees : Response → Response → Prop
  /-- The same response. -/
  | same (r : Response) : Agrees r r
  /-- Two solutions. -/
  | sat (sol sol' : Solution) : Agrees (.answered (.sat sol)) (.answered (.sat sol'))
  /-- One of two questions has no verdict. -/
  | undecided {r r' : Response} (hr : r.Asked) (hr' : r'.Asked) (h : r.Undecided ∨ r'.Undecided) :
    Agrees r r'

/-- A response without a verdict is a response to a question. -/
theorem Undecided.asked {r : Response} (h : r.Undecided) : r.Asked := by
  cases r with
  | answered o => trivial
  | failed e =>
    cases e with
    | backend message => trivial
    | compile text cause => exact h.elim
    | undeclaredVariable name => exact h.elim
    | refused message => exact h.elim
  | done => exact h.elim
  | declared answer => exact h.elim
  | counted n => exact h.elim
  | stopped f => exact h.elim

/-- No response to a question stops a run. -/
theorem Asked.isStopped_eq {r : Response} (h : r.Asked) : r.isStopped = false := by
  cases r with
  | stopped f => exact h.elim
  | _ => rfl

/-- Responses that agree stop a run alike. -/
theorem Agrees.isStopped_eq {r r' : Response} (h : r.Agrees r') : r.isStopped = r'.isStopped := by
  cases h with
  | same => rfl
  | sat sol sol' => rfl
  | undecided hr hr' _ => rw [hr.isStopped_eq, hr'.isStopped_eq]

end Response

/-- Two outcomes that are right for the same question agree. -/
theorem Outcome.RightFor.agrees {exprs : List Expr} {assumed : List Assumption} {o o' : Outcome}
    (h : o.RightFor exprs assumed) (h' : o'.RightFor exprs assumed) :
    Response.Agrees (.answered o) (.answered o') := by
  cases o with
  | interrupted => exact .undecided trivial trivial (.inl trivial)
  | sat sol =>
    cases o' with
    | interrupted => exact .undecided trivial trivial (.inr trivial)
    | sat sol' => exact .sat sol sol'
    | unsat => exact absurd ⟨sol.value, h.2⟩ h'
  | unsat =>
    cases o' with
    | interrupted => exact .undecided trivial trivial (.inr trivial)
    | sat sol' => exact absurd ⟨sol'.value, h'.2⟩ h
    | unsat => exact .same _

/-- Responses to the same question agree, if each is undecided or right. -/
theorem Response.agrees_of_verdicts {exprs : List Expr} {assumed : List Assumption}
    {r r' : Response}
    (h : r.Undecided ∨ ∃ o, r = .answered o ∧ o.RightFor exprs assumed)
    (h' : r'.Undecided ∨ ∃ o, r' = .answered o ∧ o.RightFor exprs assumed) : r.Agrees r' := by
  have hasked : ∀ {r : Response},
      (r.Undecided ∨ ∃ o, r = .answered o ∧ o.RightFor exprs assumed) → r.Asked := by
    rintro r (hr | ⟨o, rfl, -⟩)
    · exact hr.asked
    · trivial
  rcases h with hr | ⟨o, rfl, ho⟩
  · exact .undecided hr.asked (hasked h') (.inl hr)
  rcases h' with hr' | ⟨o', rfl, ho'⟩
  · exact .undecided trivial hr'.asked (.inr hr')
  · exact ho.agrees ho'

namespace Session

variable {σ : Type}

/-! ### Operations -/

/-- Runs a step of a session, with a response for each result. -/
def respond {α : Type} (f : α → Response) (x : Step SessionError (Session σ) α) (s : Session σ) :
    Response × Session σ :=
  match x s with
  | .ok a t => (f a, t)
  | .error e t => (.ofFailure e, t)

/-- Performs an operation. -/
def perform (b : Backend σ) : Operation → Session σ → Response × Session σ
  | .addExprs es, s => (.done, s.addExprs es)
  | .commit, s => respond (fun _ => .done) (Session.commit b) s
  | .assume name op bound, s => respond (fun _ => .done) (Session.assume b name op bound) s
  | .solve limit, s => respond .answered (Session.solve b limit) s
  | .isDeclared name, s => (.declared (Session.isDeclared s name), s)
  | .exprCount, s => (.counted s.exprCount, s)

/-- Performs operations one after the other, up to one that does not return. -/
def performAll (b : Backend σ) : List Operation → Session σ → List Response × Session σ
  | [], s => ([], s)
  | op :: ops, s =>
    let (r, t) := perform b op s
    if r.isStopped then ([r], t)
    else
      let (rs, u) := performAll b ops t
      (r :: rs, u)

/-- A step that succeeds is answered by its result. -/
theorem respond_of_ok {α : Type} {f : α → Response} {x : Step SessionError (Session σ) α}
    {s t : Session σ} {a : α} (h : x s = .ok a t) : respond f x s = (f a, t) := by
  simp only [respond, h]

/-- A step that fails is answered by its failure. -/
theorem respond_of_error {α : Type} {f : α → Response} {x : Step SessionError (Session σ) α}
    {s t : Session σ} {e : Failure SessionError} (h : x s = .error e t) :
    respond f x s = (.ofFailure e, t) := by
  simp only [respond, h]

/-- Whatever the answer, the session is the one that the step leaves. -/
theorem respond_snd {α : Type} (f : α → Response) (x : Step SessionError (Session σ) α)
    (s : Session σ) : (respond f x s).2 = x.after s := by
  unfold respond Step.after
  cases x s <;> rfl

/-- An operation takes no variable back. -/
theorem nextLe_perform (b : Backend σ) (op : Operation) (s : Session σ) :
    NextLe s (perform b op s).2 := by
  cases op with
  | addExprs es => exact Nat.le_refl _
  | commit =>
    rw [perform, respond_snd]
    exact nextLe_commit b s
  | assume name op bound =>
    rw [perform, respond_snd]
    exact nextLe_assume b name op bound s
  | solve limit =>
    rw [perform, respond_snd]
    exact nextLe_solve b limit s
  | isDeclared name => exact Nat.le_refl _
  | exprCount => exact Nat.le_refl _

theorem performAll_cons (b : Backend σ) (op : Operation) (ops : List Operation) (s : Session σ) :
    performAll b (op :: ops) s =
      if (perform b op s).1.isStopped then ([(perform b op s).1], (perform b op s).2)
      else ((perform b op s).1 :: (performAll b ops (perform b op s).2).1,
        (performAll b ops (perform b op s).2).2) := rfl

/-- A run of operations takes no variable back. -/
theorem nextLe_performAll (b : Backend σ) (ops : List Operation) (s : Session σ) :
    NextLe s (performAll b ops s).2 := by
  induction ops generalizing s with
  | nil => exact Nat.le_refl _
  | cons op ops ih =>
    have hfirst := nextLe_perform b op s
    rw [performAll_cons]
    split_ifs
    · exact hfirst
    · exact hfirst.trans (ih _)

/-! ### Sessions that differ by a shift -/

/-- The second session has compiled and queued the same as the first, with shifted variables. -/
structure Shadows (clauses : σ → List Clause) (k : Shift) (exprs : List Expr)
    (assumed : List Assumption) (s s' : Session σ) : Prop where
  /-- Variables to come are shifted. -/
  start : k.start ≤ s.next
  /-- The next variable. -/
  next : s'.next = s.next + k.gap
  /-- The encoded variables. -/
  vars : s'.vars = k.vars s.vars
  /-- The atoms of equalities. -/
  atoms : s'.atoms = k.atoms s.atoms
  /-- The literals of the encoded variables are literals after shifting. -/
  below : k.Fits s.vars
  /-- The queue. -/
  pending : s'.pending = s.pending
  /-- The mark of a contradiction. -/
  contradiction : s'.contradiction = s.contradiction
  /-- The number of expressions. -/
  exprCount : s'.exprCount = s.exprCount
  /-- What the first session has compiled and queued. -/
  left : Represents clauses s exprs assumed
  /-- What the second session has compiled and queued. -/
  right : Represents clauses s' exprs assumed

section Shadows

variable {b : Backend σ} {clauses : σ → List Clause} {k : Shift} {exprs : List Expr}
  {assumed : List Assumption} {s s' t : Session σ}

/-- The tables of a session that shadows another one are the shifted tables. -/
theorem Shadows.tables (h : Shadows clauses k exprs assumed s s') :
    s'.tables = k.tables s.tables := by
  simp only [Session.tables, Shift.tables, Shift.cnf, h.next, h.vars, h.atoms, Array.map_empty]

theorem Shadows.valid (h : Shadows clauses k exprs assumed s s') :
    k.compiling.Valid s.tables := ⟨h.start, h.below⟩

/-- A batch that compiles in the first session compiles in the second one. -/
theorem Shadows.commit_ok (hb : b.Sound clauses) (haccepts : b.Accepting)
    (h : Shadows clauses k exprs assumed s s') {x : Unit} (hcommit : commit b s = .ok x t)
    (hroom : t.next + k.gap ≤ Lit.varLimit) :
    ∃ t', commit b s' = .ok () t' ∧ Shadows clauses k (exprs ++ s.pending) assumed t t' := by
  have hleft := (commit_represents hb h.left hcommit (Nat.le_of_add_right_le hroom)).1
  by_cases hne : s.pending = []
  · rw [commit_of_nil hne] at hcommit
    cases hcommit
    rw [hne, List.append_nil]
    exact ⟨s', commit_of_nil (h.pending.trans hne), h⟩
  · obtain ⟨hnil, -⟩ | ⟨u, r, hcompile, hflush, rfl⟩ := commit_eq_ok hcommit
    · exact absurd hnil hne
    obtain ⟨hvalid, x', hcompile', -⟩ := (paired_compileAll (k := k) s.pending).ok trivial
      h.valid hroom hcompile
    -- The second session compiles the same queue from the shifted tables, to as many clauses.
    have hcompile'' : compileAll s'.pending s'.tables = .ok x' (k.tables u) := by
      rw [h.pending, h.tables]
      exact hcompile'
    obtain ⟨r', hflush'⟩ :=
      exists_flush haccepts (k.tables u).cnf.clauses.toList (s'.backend, s'.contradiction)
    have hcommit' := commit_of_ok (b := b) (by rwa [h.pending]) hcompile''
    rw [hflush'] at hcommit'
    refine ⟨_, hcommit', hvalid.1, rfl, rfl, rfl, hvalid.2, rfl, ?_, ?_, hleft, ?_⟩
    · have hempty : (k.tables u).cnf.clauses.toList.any (·.isEmpty) =
          u.cnf.clauses.toList.any (·.isEmpty) := by
        simp [Shift.tables, Shift.cnf, Shift.clause, Function.comp_def]
      show r'.2 = r.2
      rw [mark_flush hflush', mark_flush hflush, hempty, h.contradiction]
    · simp only [withBatch, h.exprCount, h.pending]
    · rw [← h.pending]
      exact (commit_represents hb h.right hcommit' hroom).1

/-- A batch that fails in the first session fails in the second one in the same way. -/
theorem Shadows.commit_error (haccepts : b.Accepting) (h : Shadows clauses k exprs assumed s s')
    {e : Failure SessionError} (hcommit : commit b s = .error e t)
    (hroom : t.next + k.gap ≤ Lit.varLimit) :
    ∃ t', commit b s' = .error e t' ∧
      ((Response.ofFailure e).isStopped = false → Shadows clauses k exprs assumed t t') := by
  have hne : s.pending ≠ [] := by
    intro hnil
    rw [commit_of_nil hnil] at hcommit
    cases hcommit
  have hne' : s'.pending ≠ [] := by rwa [h.pending]
  have hfails : ∀ {g : Failure SessionError} {u : Tables},
      compileAll s.pending s.tables = .error g u → u.cnf.next + k.gap ≤ Lit.varLimit →
      compileAll s'.pending s'.tables = .error g (k.tables u) := by
    intro g u hcompile hroom
    rw [h.pending, h.tables]
    exact (paired_compileAll (k := k) s.pending).error trivial h.valid hroom hcompile
  cases e with
  | fault f =>
    -- A fault ends both sessions, whatever is left of them.
    obtain ⟨u, hcompile, rfl⟩ := commit_eq_fault hcommit
    exact ⟨_, commit_of_fault hne' (hfails hcompile hroom), fun hgoes => nomatch hgoes⟩
  | error e =>
    obtain ⟨text, cause, u, -, hcompile, rfl⟩ | ⟨message, u, r, -, -, hflush, -⟩ :=
      commit_eq_error hcommit
    · have hle := next_le_of_compileAll_error hcompile
      have hcommit' := commit_of_error (b := b) hne' (hfails hcompile hroom)
      have hle' := next_le_of_compileAll_error (hfails hcompile hroom)
      refine ⟨_, hcommit', fun _ => ⟨h.start.trans hle, rfl, h.vars, h.atoms, h.below, rfl,
        h.contradiction, h.exprCount, h.left.withoutBatch hle, h.right.withoutBatch hle'⟩⟩
    · obtain ⟨r', hr'⟩ := exists_flush haccepts u.cnf.clauses.toList (s.backend, s.contradiction)
      rw [hr'] at hflush
      cases hflush

/-- The atoms of an assumption are shifted with the variable. -/
theorem assumptionAtoms_orderVar (x : OrderVar) (op : Comparator) (bound : Int) :
    assumptionAtoms (k.orderVar x) op bound =
      (assumptionAtoms x op bound).map (List.map k.atom) := by
  cases op with
  | le => exact congrArg (fun a => Except.ok [a]) (k.le_orderVar x bound)
  | lt =>
    simp only [assumptionAtoms]
    cases Word.sub bound 1 with
    | error f => rfl
    | ok c => exact congrArg (fun a => Except.ok [a]) (k.le_orderVar x c)
  | ge =>
    simp only [assumptionAtoms, k.ge_orderVar]
    cases x.ge bound <;> rfl
  | gt =>
    simp only [assumptionAtoms]
    cases Word.add bound 1 with
    | error f => rfl
    | ok c =>
      show (k.orderVar x).ge c >>= _ = (x.ge c >>= _).map _
      rw [k.ge_orderVar]
      cases x.ge c <;> rfl
  | eq =>
    simp only [assumptionAtoms, k.ge_orderVar, k.le_orderVar]
    cases x.ge bound <;> rfl

/-- After a commit that succeeds, an assumption hangs on what is declared then. -/
theorem assume_of_commit {x : Unit} {s₁ : Session σ} (h : commit b s = .ok x s₁) (name : String)
    (op : Comparator) (bound : Int) : assume b name op bound s =
      match s₁.vars.lookup name with
      | none => .error (.error (.undeclaredVariable name)) s₁
      | some y =>
        match assumptionAtoms y op bound with
        | .ok atoms =>
          .ok () { s₁ with assumptions := s₁.assumptions ++ atoms.flatMap assumptionLits }
        | .error f => .error (.fault f) s₁ := by
  show EStateM.bind (commit b) _ s = _
  simp only [EStateM.bind, h, Step.get_bind_apply]
  cases s₁.vars.lookup name with
  | none => rfl
  | some y =>
    simp only
    cases assumptionAtoms y op bound <;> rfl

/-- Assuming uses no variables beyond those of the commit. -/
theorem next_assume {x : Unit} {s₁ : Session σ} (h : commit b s = .ok x s₁) (name : String)
    (op : Comparator) (bound : Int) : ((assume b name op bound).after s).next = s₁.next := by
  unfold Step.after
  rw [assume_of_commit h]
  cases s₁.vars.lookup name with
  | none => rfl
  | some y => cases hatoms : assumptionAtoms y op bound <;> simp only [hatoms]

/-- After a commit that succeeds, a question hangs on the clauses and on the backend. -/
theorem solve_of_commit {x : Unit} {s₁ : Session σ} (h : commit b s = .ok x s₁)
    (limit : Option Nat) : solve b limit s =
      if s₁.contradiction then .ok .unsat { s₁ with assumptions := [] }
      else if isBeyondClock limit then .error (.fault .deadline) { s₁ with assumptions := [] }
      else
        match (b.solve s₁.backend s₁.assumptions limit).1 with
        | .ok answer => .ok (outcomeOf s₁.vars answer) { s₁ with
            assumptions := [], backend := (b.solve s₁.backend s₁.assumptions limit).2 }
        | .error message => .error (.error (.backend message)) { s₁ with
            assumptions := [], backend := (b.solve s₁.backend s₁.assumptions limit).2 } := by
  show EStateM.bind (commit b) _ s = _
  simp only [EStateM.bind, h]
  split_ifs
  · rfl
  · rfl
  · cases (b.solve s₁.backend s₁.assumptions limit).1 with
    | error message => rfl
    | ok answer => cases answer <;> rfl

/-- Asking uses no variables beyond those of the commit. -/
theorem next_solve {x : Unit} {s₁ : Session σ} (h : commit b s = .ok x s₁) (limit : Option Nat) :
    ((solve b limit).after s).next = s₁.next := by
  unfold Step.after
  rw [solve_of_commit h]
  split_ifs
  · rfl
  · rfl
  · cases (b.solve s₁.backend s₁.assumptions limit).1 <;> rfl

/-! ### Operations side by side -/

/-- The responses agree, and if they are not the last ones, the sessions differ by a shift from then
on. -/
def Tracks (clauses : σ → List Clause) (k : Shift) (p p' : Response × Session σ) : Prop :=
  Response.Agrees p'.1 p.1 ∧
    (p.1.isStopped = false → ∃ exprs assumed, Shadows clauses k exprs assumed p.2 p'.2)

/-- The same response, with sessions that differ by a shift. -/
theorem Tracks.same {r : Response}
    (h : r.isStopped = false → Shadows clauses k exprs assumed s s') :
    Tracks clauses k (r, s) (r, s') := ⟨.same r, fun hgoes => ⟨_, _, h hgoes⟩⟩

/-- A step that begins with a commit fails where the commit does. -/
theorem Shadows.tracks_error (haccepts : b.Accepting) {α : Type} {f : α → Response}
    {g : Unit → Step SessionError (Session σ) α} (h : Shadows clauses k exprs assumed s s')
    {e : Failure SessionError} (hcommit : commit b s = .error e t)
    (hroom : ((commit b >>= g).after s).next + k.gap ≤ Lit.varLimit) :
    Tracks clauses k (respond f (commit b >>= g) s) (respond f (commit b >>= g) s') := by
  have herror : (commit b >>= g) s = .error e t := Step.bind_eq_error.2 (.inl hcommit)
  rw [Step.after_of_error herror] at hroom
  obtain ⟨t', hcommit', ht⟩ := h.commit_error haccepts hcommit hroom
  have herror' : (commit b >>= g) s' = .error e t' := Step.bind_eq_error.2 (.inl hcommit')
  rw [respond_of_error herror, respond_of_error herror']
  exact .same ht

/-- A commit is tracked. -/
theorem Shadows.tracks_commit (hb : b.Sound clauses) (haccepts : b.Accepting)
    (h : Shadows clauses k exprs assumed s s')
    {f : Unit → Response} (hroom : ((commit b).after s).next + k.gap ≤ Lit.varLimit) :
    Tracks clauses k (respond f (commit b) s) (respond f (commit b) s') := by
  cases hcommit : commit b s with
  | error e t =>
    rw [Step.after_of_error hcommit] at hroom
    obtain ⟨t', hcommit', ht⟩ := h.commit_error haccepts hcommit hroom
    rw [respond_of_error hcommit, respond_of_error hcommit']
    exact .same ht
  | ok x t =>
    rw [Step.after_of_ok hcommit] at hroom
    obtain ⟨t', hcommit', ht⟩ := h.commit_ok hb haccepts hcommit hroom
    rw [respond_of_ok hcommit, respond_of_ok hcommit']
    exact .same fun _ => ht

/-- An assumption is tracked. -/
theorem Shadows.tracks_assume (hb : b.Sound clauses) (haccepts : b.Accepting)
    (h : Shadows clauses k exprs assumed s s')
    {name : String} {op : Comparator} {bound : Int} {f : Unit → Response}
    (hroom : ((assume b name op bound).after s).next + k.gap ≤ Lit.varLimit) :
    Tracks clauses k (respond f (assume b name op bound) s)
      (respond f (assume b name op bound) s') := by
  cases hcommit : commit b s with
  | error e t => exact h.tracks_error haccepts hcommit hroom
  | ok x s₁ =>
    rw [next_assume hcommit] at hroom
    obtain ⟨s₁', hcommit', hs₁⟩ := h.commit_ok hb haccepts hcommit hroom
    have hassume := assume_of_commit hcommit name op bound
    have hassume' := assume_of_commit hcommit' name op bound
    -- A name is looked up in both tables alike, and what is found differs by the shift.
    have hlookup' : s₁'.vars.lookup name = (s₁.vars.lookup name).map k.orderVar := by
      rw [hs₁.vars, k.lookup_vars]
    cases hlookup : s₁.vars.lookup name with
    | none =>
      rw [hlookup] at hlookup'
      simp only [hlookup, hlookup', Option.map_none] at hassume hassume'
      rw [respond_of_error hassume, respond_of_error hassume']
      exact .same fun _ => hs₁
    | some y =>
      rw [hlookup] at hlookup'
      simp only [hlookup, hlookup', Option.map_some, assumptionAtoms_orderVar] at hassume hassume'
      cases hatoms : assumptionAtoms y op bound with
      | error f =>
        simp only [hatoms, Except.map] at hassume hassume'
        rw [respond_of_error hassume, respond_of_error hassume']
        exact .same fun _ => hs₁
      | ok atoms =>
        simp only [hatoms, Except.map] at hassume hassume'
        rw [respond_of_ok hassume, respond_of_ok hassume']
        have hroom' : s₁'.next ≤ Lit.varLimit := by rwa [hs₁.next]
        have hleft := (assume_represents hb h.left hassume (Nat.le_of_add_right_le hroom)).1
        have hright := (assume_represents hb h.right hassume' hroom').1
        rw [h.pending] at hright
        exact .same fun _ => ⟨hs₁.start, hs₁.next, hs₁.vars, hs₁.atoms, hs₁.below, hs₁.pending,
          hs₁.contradiction, hs₁.exprCount, hleft, hright⟩

/-- Two sessions stay a pair when a question uses the assumptions of both up. -/
theorem Shadows.asked (h : Shadows clauses k exprs assumed s s') {backend backend' : σ}
    (hbackend : clauses backend = clauses s.backend)
    (hbackend' : clauses backend' = clauses s'.backend) :
    Shadows clauses k exprs [] { s with assumptions := [], backend := backend }
      { s' with assumptions := [], backend := backend' } :=
  ⟨h.start, h.next, h.vars, h.atoms, h.below, h.pending, h.contradiction, h.exprCount,
    h.left.asked hbackend, h.right.asked hbackend'⟩

/-- The response to a question that reaches the backend. -/
theorem respond_solve (hb : b.Sound clauses) (hs : Represents clauses s exprs assumed) {x : Unit}
    {s₁ : Session σ} (hcommit : commit b s = .ok x s₁) (hroom : s₁.next ≤ Lit.varLimit)
    (hcontra : ¬ s₁.contradiction = true) {limit : Option Nat}
    (hclock : ¬ isBeyondClock limit = true) :
    ∃ r, respond .answered (solve b limit) s = (r, { s₁ with
        assumptions := [], backend := (b.solve s₁.backend s₁.assumptions limit).2 }) ∧
      (r.Undecided ∨ ∃ o, r = .answered o ∧ o.RightFor (exprs ++ s.pending) assumed) := by
  have hsolve := solve_of_commit hcommit limit
  rw [if_neg hcontra, if_neg hclock] at hsolve
  cases hanswer : (b.solve s₁.backend s₁.assumptions limit).1 with
  | error message =>
    simp only [hanswer] at hsolve
    exact ⟨.failed (.backend message), respond_of_error hsolve, .inl trivial⟩
  | ok answer =>
    simp only [hanswer] at hsolve
    exact ⟨_, respond_of_ok hsolve, .inr ⟨_, rfl, (solve_represents hb hs hsolve hroom).2.2⟩⟩

/-- A question is tracked. -/
theorem Shadows.tracks_solve (hb : b.Sound clauses) (haccepts : b.Accepting)
    (h : Shadows clauses k exprs assumed s s')
    {limit : Option Nat} (hroom : ((solve b limit).after s).next + k.gap ≤ Lit.varLimit) :
    Tracks clauses k (respond .answered (solve b limit) s)
      (respond .answered (solve b limit) s') := by
  cases hcommit : commit b s with
  | error e t => exact h.tracks_error haccepts hcommit hroom
  | ok x s₁ =>
    rw [next_solve hcommit] at hroom
    obtain ⟨s₁', hcommit', hs₁⟩ := h.commit_ok hb haccepts hcommit hroom
    have hsolve := solve_of_commit hcommit limit
    have hsolve' := solve_of_commit hcommit' limit
    by_cases hcontra : s₁.contradiction = true
    · rw [if_pos hcontra] at hsolve
      rw [if_pos (hs₁.contradiction.trans hcontra)] at hsolve'
      rw [respond_of_ok hsolve, respond_of_ok hsolve']
      exact .same fun _ => hs₁.asked rfl rfl
    have hcontra' : ¬ s₁'.contradiction = true := by rwa [hs₁.contradiction]
    by_cases hclock : isBeyondClock limit = true
    · rw [if_neg hcontra, if_pos hclock] at hsolve
      rw [if_neg hcontra', if_pos hclock] at hsolve'
      rw [respond_of_error hsolve, respond_of_error hsolve']
      exact .same fun _ => hs₁.asked rfl rfl
    have hroom' : s₁'.next ≤ Lit.varLimit := by rwa [hs₁.next]
    -- The models may differ, but both verdicts are right for the same expressions.
    obtain ⟨r, hr, hverdict⟩ :=
      respond_solve hb h.left hcommit (Nat.le_of_add_right_le hroom) hcontra hclock
    obtain ⟨r', hr', hverdict'⟩ := respond_solve hb h.right hcommit' hroom' hcontra' hclock
    rw [h.pending] at hverdict'
    rw [hr, hr']
    exact ⟨Response.agrees_of_verdicts hverdict' hverdict, fun _ =>
      ⟨_, _, hs₁.asked (hb.solve _ _ _) (hb.solve _ _ _)⟩⟩

/-- **Operations.** The responses to an operation agree, and the sessions differ by the same shift
after it. -/
theorem Shadows.perform (hb : b.Sound clauses) (haccepts : b.Accepting)
    (h : Shadows clauses k exprs assumed s s')
    (op : Operation) (hroom : (perform b op s).2.next + k.gap ≤ Lit.varLimit) :
    Tracks clauses k (perform b op s) (perform b op s') := by
  cases op with
  | addExprs es =>
    have hqueued : Shadows clauses k exprs assumed (s.addExprs es) (s'.addExprs es) := by
      refine ⟨h.start, h.next, h.vars, h.atoms, h.below, ?_, h.contradiction, h.exprCount, ?_, ?_⟩
      · exact congrArg (· ++ es) h.pending
      · exact h.left.congr rfl (Nat.le_refl _) rfl rfl rfl rfl
      · exact h.right.congr rfl (Nat.le_refl _) rfl rfl rfl rfl
    exact .same fun _ => hqueued
  | commit => exact h.tracks_commit hb haccepts (by rwa [Session.perform, respond_snd] at hroom)
  | assume name op bound =>
    exact h.tracks_assume hb haccepts (by rwa [Session.perform, respond_snd] at hroom)
  | solve limit => exact h.tracks_solve hb haccepts (by rwa [Session.perform, respond_snd] at hroom)
  | isDeclared name =>
    have hdeclared : Session.isDeclared s' name = Session.isDeclared s name := by
      rw [isDeclared, isDeclared, h.vars, k.lookup_vars, Option.isSome_map]
    simp only [Session.perform, hdeclared]
    exact .same fun _ => h
  | exprCount =>
    simp only [Session.perform, h.exprCount]
    exact .same fun _ => h

/-- **Sequences of operations.** The responses agree one by one. -/
theorem Shadows.performAll (hb : b.Sound clauses) (haccepts : b.Accepting)
    (h : Shadows clauses k exprs assumed s s')
    (ops : List Operation) (hroom : (performAll b ops s).2.next + k.gap ≤ Lit.varLimit) :
    List.Forall₂ Response.Agrees (performAll b ops s').1 (performAll b ops s).1 := by
  induction ops generalizing exprs assumed s s' with
  | nil => exact .nil
  | cons op ops ih =>
    have hle : (Session.perform b op s).2.next ≤ (Session.performAll b (op :: ops) s).2.next := by
      rw [performAll_cons]
      split_ifs
      · exact Nat.le_refl _
      · exact nextLe_performAll b ops _
    obtain ⟨hagrees, hgoes⟩ :=
      h.perform hb haccepts op (Nat.le_trans (Nat.add_le_add_right hle _) hroom)
    rw [performAll_cons] at hroom
    -- Responses that agree stop both runs, or none.
    rw [performAll_cons, performAll_cons, hagrees.isStopped_eq]
    split_ifs at hroom ⊢ with hstops
    · exact .cons hagrees .nil
    · obtain ⟨exprs', assumed', hs⟩ := hgoes (by simpa using hstops)
      exact .cons hagrees (ih hs hroom)

/-! ### Batches that fail -/

/-- After a batch that does not compile, the session is one in which it was never queued, with a
shift of the variables to come. -/
theorem shadows_withoutBatch (hs : Represents clauses s exprs assumed) {next : Nat}
    (hle : s.next ≤ next) (hroom : next ≤ Lit.varLimit) :
    Shadows clauses ⟨s.next, next - s.next⟩ exprs assumed { s with pending := [] }
      (s.withoutBatch next) := by
  -- Everything in the tables is older than the batch, so the shift leaves it alone.
  have hbelow : ∀ p ∈ s.vars, ∀ l ∈ p.2.lits, l.var < s.next :=
    fun p hp => (hs.wellFormed.vars p hp).below
  refine ⟨Nat.le_refl _, (Nat.add_sub_cancel' hle).symm, ?_, ?_, ?_, rfl, rfl, rfl, ?_,
    hs.withoutBatch hle⟩
  · exact (Shift.vars_of_below _ hbelow).symm
  · exact (Shift.atoms_of_below _ hs.wellFormed.atoms).symm
  · intro p hp l hl
    have hl := hbelow p hp l hl
    simp only [Shift.limit] at hl ⊢
    omega
  · exact hs.congr rfl (Nat.le_refl _) rfl rfl rfl rfl

/-- After an assumption, accepted or not, nothing is pending. -/
theorem pending_assume (name : String) (op : Comparator) (bound : Int) (s : Session σ) :
    ((assume b name op bound).after s).pending = [] := by
  have hpending := pending_commit b s
  cases h : commit b s with
  | error e t =>
    have herror : assume b name op bound s = .error e t := Step.bind_eq_error.2 (.inl h)
    rwa [Step.after_of_error herror, ← Step.after_of_error h]
  | ok x s₁ =>
    rw [Step.after_of_ok h] at hpending
    unfold Step.after
    rw [assume_of_commit h]
    cases s₁.vars.lookup name with
    | none => exact hpending
    | some y => cases hatoms : assumptionAtoms y op bound <;> simpa only [hatoms] using hpending

/-- After a question, answered or not, nothing is pending. -/
theorem pending_solve (limit : Option Nat) (s : Session σ) :
    ((solve b limit).after s).pending = [] := by
  have hpending := pending_commit b s
  cases h : commit b s with
  | error e t =>
    have herror : solve b limit s = .error e t := Step.bind_eq_error.2 (.inl h)
    rwa [Step.after_of_error herror, ← Step.after_of_error h]
  | ok x s₁ =>
    rw [Step.after_of_ok h] at hpending
    unfold Step.after
    rw [solve_of_commit h]
    split_ifs
    · exact hpending
    · exact hpending
    · cases (b.solve s₁.backend s₁.assumptions limit).1 <;> exact hpending

theorem Run.unqueued_of_nil {s₀ : σ} {past : History} (hrun : Run b s₀ s past)
    (hs : s.pending = []) (hpast : past.pending = []) :
    Run b s₀ { s with pending := [] } { past with pending := [] } := by
  have hs' : { s with pending := [] } = s := by rw [← hs]
  have hpast' : { past with pending := [] } = past := by rw [← hpast]
  rwa [hs', hpast']

theorem pending_fail (e : SessionError) (past : History) : (past.fail e).pending = [] := by
  cases e <;> rfl

/-- What is queued may be left out of a run. -/
theorem Run.unqueued {s₀ : σ} {past : History} (hrun : Run b s₀ s past) :
    Run b s₀ { s with pending := [] } { past with pending := [] } := by
  induction hrun with
  | start hstart =>
    obtain ⟨-, rfl⟩ := start_eq_ok hstart
    exact .start hstart
  | addExprs es _ ih => exact ih
  | commit hrun hstep _ =>
    refine (Run.commit hrun hstep).unqueued_of_nil ?_ rfl
    rw [← Step.after_of_ok hstep]
    exact pending_commit _ _
  | commitFails hrun hstep _ =>
    refine (Run.commitFails hrun hstep).unqueued_of_nil ?_ (pending_fail _ _)
    rw [← Step.after_of_error hstep]
    exact pending_commit _ _
  | assume hrun hstep _ =>
    refine (Run.assume hrun hstep).unqueued_of_nil ?_ rfl
    rw [← Step.after_of_ok hstep]
    exact pending_assume _ _ _ _
  | assumeFails hrun hstep _ =>
    refine (Run.assumeFails hrun hstep).unqueued_of_nil ?_ (pending_fail _ _)
    rw [← Step.after_of_error hstep]
    exact pending_assume _ _ _ _
  | solve hrun hstep _ =>
    refine (Run.solve hrun hstep).unqueued_of_nil ?_ rfl
    rw [← Step.after_of_ok hstep]
    exact pending_solve _ _
  | solveFails hrun hstep _ =>
    refine (Run.solveFails hrun hstep).unqueued_of_nil ?_ (pending_fail _ _)
    rw [← Step.after_of_error hstep]
    exact pending_solve _ _

/-- The log is empty between the operations of a run. -/
theorem Run.undo_eq {s₀ : σ} {past : History} (hrun : Run b s₀ s past) : s.undo = {} := by
  induction hrun with
  | start hstart =>
    obtain ⟨-, rfl⟩ := start_eq_ok hstart
    rfl
  | addExprs _ _ ih => exact ih
  | commit _ hstep ih => exact undo_of_commit_ok ih hstep
  | commitFails _ hstep _ => exact undo_of_commit_error hstep
  | assume _ hstep ih =>
    obtain ⟨s₁, y, atoms, hcommit, -, -, rfl⟩ := assume_eq_ok hstep
    have hs₁ : s₁.undo = {} := undo_of_commit_ok ih hcommit
    exact hs₁
  | assumeFails _ hstep ih =>
    rcases assume_eq_error hstep with hcommit | ⟨hcommit, -, -⟩
    · exact undo_of_commit_error hcommit
    · exact undo_of_commit_ok ih hcommit
  | solve _ hstep ih =>
    obtain ⟨s₁, hcommit, hasked⟩ := solve_eq_ok hstep
    have hs₁ : s₁.undo = {} := undo_of_commit_ok ih hcommit
    rcases hasked with ⟨-, -, rfl⟩ | ⟨-, answer, -, -, rfl⟩
    · exact hs₁
    · exact hs₁
  | solveFails _ hstep ih =>
    rcases solve_eq_error hstep with hcommit | ⟨s₁, message, hcommit, -, rfl⟩
    · exact undo_of_commit_error hcommit
    · have hs₁ : s₁.undo = {} := undo_of_commit_ok ih hcommit
      exact hs₁

/-- **A batch that fails takes no effect.** Where the compiler stops, the log has the keys of all
entries that the batch has made, none of which was there before, and taking these back leads to the
tables of the session.  Only fresh variables are used up; nothing is sent, and nothing else has
changed.  So on a sound backend that refuses no clause, the responses to all later operations agree
with those of the session that the operations before lead to if the batch is never queued. -/
theorem commit_error_invisible {s₀ : σ} {past : History} (hrun : Run b s₀ s past) {text : String}
    {cause : CompileError} (hfail : commit b s = .error (.error (.compile text cause)) s') :
    s' = { s with next := s'.next, pending := [] } ∧
      (∃ t, Tables.Enters (Expr.declaredBy s.pending) s.tables t ∧
        compileAll s.pending s.tables = .error (.error (.compile text cause)) t.rollback ∧
        t.rollback.vars = s.vars ∧ t.rollback.atoms = s.atoms ∧ t.cnf.next = s'.next) ∧
      Run b s₀ { s with pending := [] } { past with pending := [] } ∧
      ∀ clauses : σ → List Clause, b.Sound clauses → b.Accepting → clauses s₀ = [] →
        ∀ ops, (performAll b ops { s with pending := [] }).2.next + (s'.next - s.next) ≤
            Lit.varLimit →
          List.Forall₂ Response.Agrees (performAll b ops s').1
            (performAll b ops { s with pending := [] }).1 := by
  have hundo := hrun.undo_eq
  obtain ⟨-, -, u, -, hcompile, rfl⟩ | ⟨-, -, -, ⟨⟩, -⟩ := commit_eq_error hfail
  refine ⟨?_, ?_, hrun.unqueued, fun clauses hb haccepts h₀ ops hroom => ?_⟩
  · obtain ⟨backend, next, vars, atoms, undo, pending, assumptions, contradiction, count⟩ := s
    cases hundo
    rfl
  · obtain ⟨-, -, t, -, henters, rfl⟩ := compileAll_eq_error hcompile
    have hback := henters.rollback rfl
    exact ⟨t, henters, hcompile, by rw [hback]; rfl, by rw [hback]; rfl, rfl⟩
  · -- The shift between the sessions is by the variables that the failed batch has used up.
    have hle : s.next ≤ u.cnf.next := next_le_of_compileAll_error hcompile
    have hops : s.next ≤ (performAll b ops { s with pending := [] }).2.next :=
      nextLe_performAll b ops { s with pending := [] }
    have hroom' : s.next + (u.cnf.next - s.next) ≤ Lit.varLimit :=
      Nat.le_trans (Nat.add_le_add_right hops _) hroom
    obtain ⟨-, hs⟩ := hrun.represents hb h₀ (hrun.refused_eq_false haccepts) (by omega)
    exact (shadows_withoutBatch hs hle (by omega)).performAll hb haccepts ops hroom

end Shadows

/-- A batch that declares a variable, names one of its equalities, and then speaks of a variable
that is nowhere declared. -/
def strayExprs : List Expr :=
  [.int "x" [0, 1, 2], .allDifferent ["x", "y"], .allDifferent ["x", "missing"]]

/-- A session with a variable, an assumption about it, and the batch in the queue. -/
def straySession : Session (List Clause) :=
  ((assume .reference "y" .ge 2).after
    (reference.addExprs [.int "y" [1, 2, 3]])).addExprs strayExprs

/-- The names of the batch are declared again with other values. -/
def retryOps : List Operation :=
  [.isDeclared "x", .assume "x" .ge 1, .exprCount, .addExprs [.int "x" [5, 6], .ge "x" 6],
    .addExprs [.allDifferent ["x", "y"]], .commit, .isDeclared "x", .solve none,
    .assume "y" .le 0, .solve none]

theorem commit_error_invisible_stray :
    (performAll .reference retryOps ((commit .reference).after straySession)).1 =
        [.declared false, .failed (.undeclaredVariable "x"), .counted 1, .done, .done, .done,
          .declared true, .answered (.sat [("x", 6), ("y", 3)]), .done, .answered .unsat] ∧
      List.Forall₂ Response.Agrees
        (performAll .reference retryOps ((commit .reference).after straySession)).1
        (performAll .reference retryOps { straySession with pending := [] }).1 :=
  have hassume : (assume .reference "y" .ge 2).result?
      (reference.addExprs [.int "y" [1, 2, 3]]) = some () := by cbv
  have hfail : commit .reference straySession = .error
      (.error (.compile "(alldifferent x missing)" (.undeclaredVariable "missing")))
      ((commit .reference).after straySession) := by cbv
  ⟨by cbv, (commit_error_invisible (.addExprs strayExprs
    (.assume (.addExprs _ (.start start_reference)) (Step.eq_ok_of_result? hassume))) hfail).2.2.2
    _ Backend.reference_sound Backend.reference_accepting rfl retryOps (by cbv)⟩

end Session

end WeightedCsp

import WeightedCsp.Method.Optimizer
import WeightedCsp.Proofs.Csp.Acceptance
import WeightedCsp.Proofs.Csp.History
import WeightedCsp.Proofs.Faults

/-!
# Runs of an optimizer

`Runs fair x o post` says how the step `x` can end from `o`: with a result and a state that satisfy
`post`, with an overflow, or with an error; where the final state is `fair`, the error is excused:
an encoding failed or the backend did, or it refused a clause.  A state may count as fair as long as
no question was interrupted, or always, or never, and then nothing is said of errors.  All of this
is said only of runs that leave room for the variables in use; since variables are never taken back,
room at the end means room all the way (`Later`), and the rules for sequencing take care of it.  So
every function needs one lemma about itself, and what it starts from may be taken for granted only
if there is room.

A question that there is no time for is not put, and what was assumed for it stays assumed.  But
then there is no time for the next question either (`Spent`), so these assumptions never count
(`Clear`).
-/

namespace WeightedCsp

/-- The existence of something that is needed under a condition only. -/
theorem exists_of_imp {p : Prop} {α : Type} [Nonempty α] {q : α → Prop} (h : p → ∃ a, q a) :
    ∃ a, p → q a := by
  by_cases hp : p
  · obtain ⟨a, ha⟩ := h hp
    exact ⟨a, fun _ => ha⟩
  · exact ⟨Classical.arbitrary α, fun hp' => absurd hp' hp⟩

namespace Optimizer

variable {σ α β : Type}

/-! ### What a run never takes back -/

/-- No question so far was interrupted. -/
def Uninterrupted (o : Optimizer σ) : Prop := ∀ q ∈ o.questions, q.outcome ≠ .interrupted

/-- All variables in use are variables of literals. -/
def Room (o : Optimizer σ) : Prop := o.session.next ≤ Lit.varLimit

/-- The second optimizer has all the variables and all the questions of the first, and its model. -/
structure Later (o o' : Optimizer σ) : Prop where
  /-- Variables are never taken back. -/
  next : o.session.next ≤ o'.session.next
  /-- Questions are never forgotten. -/
  questions : o.questions <+: o'.questions
  /-- The model stays. -/
  model : o'.model = o.model

theorem Later.refl (o : Optimizer σ) : Later o o := ⟨Nat.le_refl _, List.prefix_refl _, rfl⟩

theorem Later.trans {o o' o'' : Optimizer σ} (h₁ : Later o o') (h₂ : Later o' o'') :
    Later o o'' :=
  ⟨h₁.next.trans h₂.next, h₁.questions.trans h₂.questions, h₂.model.trans h₁.model⟩

theorem Later.room {o o' : Optimizer σ} (h : Later o o') (hroom : o'.Room) : o.Room :=
  h.next.trans hroom

/-! ### How a step can end -/

/-- Failures that a method is not to blame for: an encoding gives out, or the backend fails or
refuses a clause. -/
inductive Excused : MethodError → Prop
  | encoding (text : String) (cause : EncodingError) :
    Excused (.session (.compile text (.encoding cause)))
  | backend (message : String) : Excused (.session (.backend message))
  | refused (message : String) : Excused (.session (.refused message))

/-- What is not the fault of the expressions is not that of a method. -/
theorem Excused.of_external {e : SessionError} (h : e.External) : Excused (.session e) := by
  cases h with
  | encoding text cause => exact .encoding text cause
  | refused message => exact .refused message
  | backend message => exact .backend message

/-- The step ends with a result and a state that satisfy `post`, or fails; if not by an overflow and
the final state is `fair`, it fails with an excuse. -/
def Runs (fair : Optimizer σ → Prop) (x : Action σ α) (o : Optimizer σ)
    (post : α → Optimizer σ → Prop) : Prop :=
  match x o with
  | .ok a o' => Later o o' ∧ (o'.Room → post a o')
  | .error (.fault t) _ => t.IsOverflow
  | .error (.error e) o' => Later o o' ∧ (o'.Room → fair o' → Excused e)

variable {fair : Optimizer σ → Prop}

section Rules

variable {x : Action σ α} {f : α → Action σ β} {o : Optimizer σ}
  {post post' : α → Optimizer σ → Prop} {last : β → Optimizer σ → Prop}

/-- What is known of a run that succeeds, whatever is known of errors. -/
theorem Runs.of_eq_ok (h : Runs (fun _ => False) x o post) {a : α} {o' : Optimizer σ}
    (hx : x o = .ok a o') :
    Later o o' ∧ (o'.Room → post a o') := by
  unfold Runs at h
  rwa [hx] at h

/-- What is known of the result may be weakened, for states that come later and have room. -/
theorem Runs.mono (h : Runs fair x o post)
    (himp : ∀ a o', Later o o' → o'.Room → post a o' → post' a o') : Runs fair x o post' := by
  unfold Runs at h ⊢
  cases hx : x o with
  | ok a o' =>
    rw [hx] at h
    exact ⟨h.1, fun hroom => himp a o' h.1 hroom (h.2 hroom)⟩
  | error e o' =>
    rw [hx] at h
    cases e with
    | fault _ => exact h
    | error e => exact h

/-- **Sequencing.** What follows may count on what came before, as long as there is room. -/
theorem Runs.bind (hx : Runs fair x o post)
    (hf : ∀ a o', Later o o' → (o'.Room → post a o') → Runs fair (f a) o' last) :
    Runs fair (x >>= f) o last := by
  show Runs fair (EStateM.bind x f) o last
  unfold Runs EStateM.bind at *
  cases hx' : x o with
  | error e o' =>
    rw [hx'] at hx
    cases e with
    | fault _ => exact hx
    | error e => exact hx
  | ok a o' =>
    rw [hx'] at hx
    -- What came before is known as far as there is room where it ended.
    have hrest := hf a o' hx.1 hx.2
    cases hf' : f a o' with
    | ok c o'' =>
      simp only [hf'] at hrest ⊢
      exact ⟨hx.1.trans hrest.1, hrest.2⟩
    | error e o'' =>
      simp only [hf'] at hrest ⊢
      cases e with
      | fault _ => exact hrest
      | error e => exact ⟨hx.1.trans hrest.1, hrest.2⟩

/-- Sequencing after a step whose end is known. -/
theorem runs_bind_of_eq {a : α} {o' : Optimizer σ} (hx : x o = .ok a o') (hlater : Later o o')
    (h : Runs fair (f a) o' last) : Runs fair (x >>= f) o last := by
  show Runs fair (EStateM.bind x f) o last
  unfold Runs EStateM.bind at *
  simp only [hx]
  cases hf' : f a o' with
  | ok c o'' =>
    simp only [hf'] at h
    exact ⟨hlater.trans h.1, h.2⟩
  | error e o'' =>
    simp only [hf'] at h
    cases e with
    | fault _ => exact h
    | error e => exact ⟨hlater.trans h.1, h.2⟩

theorem runs_pure {a : α} (h : o.Room → post a o) : Runs fair (pure a) o post := ⟨.refl o, h⟩

theorem runs_get_bind {f : Optimizer σ → Action σ β} (h : Runs fair (f o) o last) :
    Runs fair (get >>= f) o last := h

theorem runs_fail {e : MethodError} (h : o.Room → fair o → Excused e) :
    Runs fair (Step.fail e) o post := ⟨.refl o, h⟩

theorem runs_checked {c : Checked α} (hc : c.Tame) (h : ∀ a, c = .ok a → o.Room → post a o) :
    Runs fair (liftM c) o post := by
  cases c with
  | ok a => exact ⟨.refl o, h a rfl⟩
  | error t => exact hc t rfl

/-- Sequencing after a computation whose result is known if it succeeds. -/
theorem runs_checked_bind {c : Checked α} (hc : c.Tame)
    (h : ∀ a, c = .ok a → Runs fair (f a) o last) : Runs fair (liftM c >>= f) o last := by
  cases c with
  | ok a => exact h a rfl
  | error t => exact hc t rfl

/-- Sequencing after a computation whose errors are excused. -/
theorem runs_except_bind {q : MethodError → Prop} {r : Except (Failure MethodError) α}
    (hr : Failure.Tame q r)
    (hok : ∀ a, r = .ok a → Runs fair (f a) o last)
    (herror : ∀ e, r = .error (.error e) → o.Room → fair o → Excused e) :
    Runs fair (liftM r >>= f) o last := by
  cases r with
  | ok a => exact hok a rfl
  | error e =>
    cases e with
    | fault t => exact hr _ rfl
    | error e => exact ⟨.refl o, herror e rfl⟩

/-- A step of the session runs if its errors are excused. -/
theorem runs_inSession {q : SessionError → Prop} {y : Step SessionError (Session σ) α}
    (htame : y.Tame q)
    (hnext : y.Follows Session.NextLe)
    (hok : ∀ a s, y o.session = .ok a s → s.next ≤ Lit.varLimit → post a { o with session := s })
    (herror : ∀ e s, y o.session = .error (.error e) s → o.Room → Excused (.session e)) :
    Runs fair (inSession y) o post := by
  unfold Runs inSession
  cases hy : y o.session with
  | ok a s => exact ⟨⟨hnext.ok hy, List.prefix_refl _, rfl⟩, hok a s hy⟩
  | error e s =>
    cases e with
    | fault t => exact htame _ _ s hy
    | error e =>
      refine ⟨⟨hnext.error hy, List.prefix_refl _, rfl⟩, fun hroom _ => herror e s hy ?_⟩
      exact Nat.le_trans (hnext.error hy) hroom

end Rules

/-! ### Steps of an optimizer -/

/-- A step that expects a phase runs in this phase. -/
theorem runs_expect_bind {phase : Phase} {o : Optimizer σ} {f : Unit → Action σ β}
    {post : β → Optimizer σ → Prop} (hphase : o.Room → o.phase = phase)
    (h : Runs fair (f ()) o post) : Runs fair (expect phase >>= f) o post := by
  by_cases heq : o.phase = phase
  · have hexpect : expect phase o = .ok () o := if_pos heq
    exact runs_bind_of_eq hexpect (.refl o) h
  · have hexpect : expect phase o = .error (.error (.wrongPhase phase o.phase)) o := if_neg heq
    show Runs fair (EStateM.bind (expect phase) f) o post
    unfold Runs EStateM.bind
    simp only [hexpect]
    exact ⟨.refl o, fun hroom _ => absurd (hphase hroom) heq⟩

theorem runs_enter {b : Backend σ} {phase : Phase} {o : Optimizer σ}
    {post : Unit → Optimizer σ → Prop}
    (h : ∀ took, o.Room → post () { o with phase := phase, took := took }) :
    Runs fair (enter b phase) o post := ⟨⟨Nat.le_refl _, List.prefix_refl _, rfl⟩, h _⟩

section Known

variable {o : Optimizer σ} {f : Unit → Action σ β} {post : β → Optimizer σ → Prop}

theorem runs_modify_bind {g : Optimizer σ → Optimizer σ} (hlater : Later o (g o))
    (h : Runs fair (f ()) (g o) post) : Runs fair (modify g >>= f) o post :=
  runs_bind_of_eq rfl hlater h

theorem runs_queue_bind {es : List Expr}
    (h : Runs fair (f ()) { o with session := o.session.addExprs es } post) :
    Runs fair (queue es >>= f) o post :=
  runs_bind_of_eq (show queue es o = .ok () { o with session := o.session.addExprs es } from rfl)
    ⟨Nat.le_refl _, List.prefix_refl _, rfl⟩ h

theorem runs_enter_bind {b : Backend σ} {phase : Phase}
    (h : ∀ took, Runs fair (f ()) { o with phase := phase, took := took } post) :
    Runs fair (enter b phase >>= f) o post := by
  let took := if phase.isFinal then some (o.elapsed b) else o.took
  have henter : enter b phase o = .ok () { o with phase := phase, took := took } := rfl
  exact runs_bind_of_eq henter ⟨Nat.le_refl _, List.prefix_refl _, rfl⟩ (h took)

theorem runs_record_bind {s : Solution} (h : Runs fair (f ()) { o with best := some s } post) :
    Runs fair (record s >>= f) o post := runs_modify_bind ⟨Nat.le_refl _, List.prefix_refl _, rfl⟩ h

end Known

theorem runs_valueOf_bind {s : Solution} {name : String} {o : Optimizer σ} {f : Int → Action σ β}
    {post : β → Optimizer σ → Prop} (hget : o.Room → s.get? name = some (s.value name))
    (h : Runs fair (f (s.value name)) o post) : Runs fair (valueOf s name >>= f) o post := by
  unfold valueOf
  unfold Solution.value at hget h
  cases hs : s.get? name with
  | some v =>
    rw [hs] at h
    exact h
  | none =>
    refine ⟨.refl o, fun hroom _ => ?_⟩
    have := hget hroom
    rw [hs] at this
    cases this

section Session

variable {b : Backend σ} {clauses : σ → List Clause} {values : String → List Int}
  {names : List String} {exprs : List Expr} {assumed : List Assumption} {o : Optimizer σ}

/-- A batch that stands is compiled, or fails with an excuse. -/
theorem runs_commit (hb : b.Sound clauses)
    (hs : o.Room → o.session.Stands clauses values names exprs assumed) :
    Runs fair (inSession (Session.commit b)) o fun _ o' => o' = { o with session := o'.session } ∧
      o'.session.Stands clauses values names exprs assumed := by
  refine runs_inSession (Session.tame_commit b) (Session.nextLe_commit b)
    (fun _ s hstep hroom => ?_) fun e s hstep hroom => ?_
  · have hs' := hs (Nat.le_trans ((Session.nextLe_commit b).ok hstep) hroom)
    exact ⟨rfl, hs'.commit hb hstep hroom⟩
  · exact .of_external ((hs hroom).ready.commit_error hstep)

/-- An assumption on a declared name is made, or fails with an excuse. -/
theorem runs_assume (hb : b.Sound clauses)
    (hs : o.Room → o.session.Stands clauses values names exprs assumed) {name : String}
    (hname : o.Room → name ∈ names) (op : Comparator) (bound : Int) :
    Runs fair (assume b name op bound) o fun _ o' => o' = { o with session := o'.session } ∧
      o'.session.Stands clauses values names exprs (assumed ++ [⟨name, op, bound⟩]) := by
  refine runs_inSession (Session.tame_assume b _ _ _) (Session.nextLe_assume b _ _ _)
    (fun _ s hstep hroom => ?_) fun e s hstep hroom => ?_
  · have hs' := hs (Nat.le_trans ((Session.nextLe_assume b _ _ _).ok hstep) hroom)
    exact ⟨rfl, hs'.assume hb hstep hroom⟩
  · exact .of_external ((hs hroom).ready.assume_error (hname hroom) hstep)

/-- There is no time left for another question. -/
def Spent (b : Backend σ) (o : Optimizer σ) : Prop := o.callLimit b = some 0

/-- The session stands for the expressions, and the next question is about nothing else: assumptions
are left over only where there is no time for it. -/
def Clear (b : Backend σ) (clauses : σ → List Clause) (values : String → List Int)
    (names : List String) (exprs : List Expr) (o : Optimizer σ) : Prop :=
  ∃ left, o.session.Stands clauses values names exprs left ∧ (left = [] ∨ o.Spent b)

theorem clear_of_stands (h : o.session.Stands clauses values names exprs []) :
    Clear b clauses values names exprs o := ⟨[], h, .inl rfl⟩

/-- More may be said; that takes no time. -/
theorem Clear.addExprs (h : Clear b clauses values names exprs o) {es : List Expr}
    (hes : Expr.Accepts values names es) :
    Clear b clauses values (names ++ Expr.declaredBy es) (exprs ++ es)
      { o with session := o.session.addExprs es } := by
  obtain ⟨left, hleft, hspent⟩ := h
  exact ⟨left, hleft.addExprs hes, hspent⟩

/-- What came of a question: the outcome is right, and unless there was no time for the question it
has used up the assumptions. -/
structure Asked (b : Backend σ) (clauses : σ → List Clause) (values : String → List Int)
    (names : List String) (exprs : List Expr) (assumed : List Assumption) (bound : Option Int)
    (o : Optimizer σ) (outcome : Outcome) (o' : Optimizer σ) : Prop where
  /-- Nothing but the session and the account of questions changes. -/
  frame : o' = { o with
    session := o'.session, solves := o'.solves,
    questions := o.questions ++ [⟨bound, outcome⟩] }
  /-- The session stands for the same expressions. -/
  stands : ∃ left, o'.session.Stands clauses values names exprs left ∧
    (outcome ≠ .interrupted → left = [] ∧ o'.solves = o.solves + 1)
  /-- What was assumed does not count for the next question. -/
  clear : Clear b clauses values names exprs o'
  /-- The outcome is right. -/
  right : outcome.RightFor exprs assumed

/-- Assumptions do not count as a change. -/
theorem Asked.of_session {bound : Option Int} {o₁ o₂ : Optimizer σ} {outcome : Outcome}
    (h : Asked b clauses values names exprs assumed bound o₁ outcome o₂)
    (hframe : o₁ = { o with session := o₁.session }) :
    Asked b clauses values names exprs assumed bound o outcome o₂ := by
  have hframe₂ := h.frame
  have hstands := h.stands
  rw [hframe] at hframe₂ hstands
  exact ⟨hframe₂, hstands, h.clear, h.right⟩

/-- What comes of posing a question, which is not put if there is no time for it. -/
theorem runs_pose (hb : b.Sound clauses)
    (hs : o.Room → o.session.Stands clauses values names exprs assumed) :
    Runs fair (pose b) o fun outcome o' =>
      (o' = { o with session := o'.session, solves := o'.solves } ∧
        o'.session.Stands clauses values names exprs [] ∧ o'.solves = o.solves + 1 ∧
        outcome.RightFor exprs assumed) ∨
      (o' = o ∧ o.Spent b ∧ outcome = .interrupted) := by
  refine runs_get_bind ?_
  split
  · next hlimit => exact runs_pure fun _ => .inr ⟨rfl, hlimit, rfl⟩
  · refine runs_modify_bind ⟨Nat.le_refl _, List.prefix_refl _, rfl⟩ ?_
    refine runs_inSession (Session.tame_solve b _) (Session.nextLe_solve b _)
      (fun outcome s hstep hroom => ?_) fun e s hstep hroom => ?_
    · have hs' := hs (Nat.le_trans ((Session.nextLe_solve b _).ok hstep) hroom)
      obtain ⟨hstands, hright⟩ := hs'.solve hb hstep hroom
      exact .inl ⟨rfl, hstands, rfl, hright⟩
    · exact .of_external ((hs hroom).ready.solve_error hstep)

/-- **Questions.** With a sound backend the outcome is right, and it is noted. -/
theorem runs_ask (hb : b.Sound clauses)
    (hs : o.Room → o.session.Stands clauses values names exprs assumed) (bound : Option Int) :
    Runs fair (ask b bound) o (Asked b clauses values names exprs assumed bound o) := by
  refine (runs_pose hb hs).bind fun outcome o₁ hlater h₁ => ?_
  refine runs_modify_bind ⟨Nat.le_refl _, List.prefix_append _ _, rfl⟩ (runs_pure fun hroom => ?_)
  rcases h₁ hroom with ⟨hframe, hstands, hsolves, hright⟩ | ⟨rfl, hspent, rfl⟩
  · refine ⟨?_, ⟨[], hstands, fun _ => ⟨rfl, hsolves⟩⟩, clear_of_stands hstands, hright⟩
    rw [hframe]
  · exact ⟨rfl, ⟨assumed, hs hroom, fun hne => absurd rfl hne⟩, ⟨assumed, hs hroom, .inr hspent⟩,
      trivial⟩

/-- A question about the expressions alone. -/
theorem runs_ask_clear (hb : b.Sound clauses)
    (hs : o.Room → Clear b clauses values names exprs o) (bound : Option Int) :
    Runs fair (ask b bound) o (Asked b clauses values names exprs [] bound o) := by
  by_cases hspent : o.Spent b
  · -- The question is not put, so whatever is left over does not matter.
    have hpose : pose b o = .ok .interrupted o := by
      rw [pose, Step.get_bind_apply, show o.callLimit b = some 0 from hspent]
      rfl
    refine runs_bind_of_eq hpose (.refl o) ?_
    refine runs_modify_bind ⟨Nat.le_refl _, List.prefix_append _ _, rfl⟩ (runs_pure fun hroom => ?_)
    obtain ⟨left, hleft, -⟩ := hs hroom
    exact ⟨rfl, ⟨left, hleft, fun hne => absurd rfl hne⟩, ⟨left, hleft, .inr hspent⟩, trivial⟩
  · have hs' : o.Room → o.session.Stands clauses values names exprs [] := by
      intro hroom
      obtain ⟨left, hleft, rfl | hno⟩ := hs hroom
      · exact hleft
      · exact absurd hno hspent
    exact runs_ask hb hs' bound

/-! ### The first question -/

/-- There is no solution: all values are refused, or the question was interrupted. -/
structure Unsolved (exprs : List Expr) (o o' : Optimizer σ) : Prop where
  /-- The model and the best solution stay. -/
  kept : o'.model = o.model ∧ o'.best = o.best
  /-- The search is at an end, for one of two reasons. -/
  reason : (o'.phase = .infeasible ∧ (¬∃ value, Expr.AllHold value exprs) ∧
      o'.questions = o.questions ++ [⟨none, .unsat⟩] ∧ o'.solves = o.solves + 1) ∨
    (o'.phase = .timeout ∧ o'.questions = o.questions ++ [⟨none, .interrupted⟩])

/-- A first question is asked, and its answer is recorded. -/
theorem runs_firstSolution (hb : b.Sound clauses)
    (hs : o.Room → Clear b clauses values names exprs o) :
    Runs fair (firstSolution b) o fun r o' =>
      (∀ s, r = some s → Asked b clauses values names exprs [] none o (.sat s) o') ∧
      (r = none → Unsolved exprs o o') := by
  refine (runs_ask_clear hb hs none).bind fun outcome o₁ _ h₁ => ?_
  cases outcome with
  | sat s =>
    refine runs_pure fun hroom => ⟨fun t ht => ?_, fun hnone => by cases hnone⟩
    cases ht
    exact h₁ hroom
  | unsat =>
    refine runs_enter_bind fun took => runs_pure fun hroom => ⟨by simp, fun _ => ?_⟩
    have hasked := h₁ hroom
    obtain ⟨left, -, hused⟩ := hasked.stands
    have hframe := hasked.frame
    refine ⟨?_, .inl ⟨rfl, fun ⟨value, hvalue⟩ => ?_, ?_, (hused (by simp)).2⟩⟩
    · rw [hframe]
      exact ⟨rfl, rfl⟩
    · exact hasked.right ⟨value, hvalue, by simp⟩
    · rw [hframe]
  | interrupted =>
    refine runs_enter_bind fun took => runs_pure fun hroom => ⟨by simp, fun _ => ?_⟩
    have hframe := (h₁ hroom).frame
    refine ⟨?_, .inr ⟨rfl, ?_⟩⟩
    · rw [hframe]
      exact ⟨rfl, rfl⟩
    · rw [hframe]

/-- A solution was found and nothing more is asked. -/
structure Found (exprs : List Expr) (o o' : Optimizer σ) (s : Solution) : Prop where
  /-- The model stays. -/
  model : o'.model = o.model
  /-- The search is at an end. -/
  phase : o'.phase = .optimal
  /-- The solution is the best one. -/
  best : o'.best = some s
  /-- The solution satisfies the expressions. -/
  right : Outcome.RightFor exprs [] (.sat s)
  /-- It was asked for once. -/
  asked : o'.questions = o.questions ++ [⟨none, .sat s⟩] ∧ o'.solves = o.solves + 1

/-- Any solution is enough where nothing is to be minimized. -/
theorem runs_anySolution (hb : b.Sound clauses)
    (hs : o.Room → Clear b clauses values names exprs o) :
    Runs fair (anySolution b) o fun _ o' => (∃ s, Found exprs o o' s) ∨ Unsolved exprs o o' := by
  refine (runs_firstSolution hb hs).bind fun r o₁ _ h₁ => ?_
  cases r with
  | none => exact runs_pure fun hroom => .inr ((h₁ hroom).2 rfl)
  | some s =>
    refine runs_record_bind (runs_enter fun took hroom => .inl ⟨s, ?_⟩)
    have hasked := (h₁ hroom).1 s rfl
    obtain ⟨left, -, hused⟩ := hasked.stands
    have hframe := hasked.frame
    refine ⟨?_, rfl, rfl, hasked.right, ?_, (hused (by simp)).2⟩
    · rw [hframe]
    · rw [hframe]

end Session

/-! ### Runs on small inputs -/

/-- What is of interest about a run that ends with a report. -/
structure Digest where
  status : Phase
  objective : Option Int
  tiers : List (Nat × Int)
  solves : Nat
  next : Nat
  answered : Bool
deriving DecidableEq

/-- The digest of a report and the state after it. -/
def Digest.of (r : Report) (o : Optimizer σ) : Digest :=
  ⟨r.status, r.objective, r.tiers, r.solves, o.session.next,
    o.questions.all fun q => q.outcome ≠ .interrupted⟩

/-- The digest of a run, unless it fails. -/
def digest : EStateM.Result (Failure MethodError) (Optimizer σ) Report → Option Digest
  | .ok r o => some (.of r o)
  | .error _ _ => none

theorem digest_eq_some {x : EStateM.Result (Failure MethodError) (Optimizer σ) Report}
    {d : Digest} (h : digest x = some d) : ∃ r o, x = .ok r o ∧ Digest.of r o = d := by
  cases x with
  | ok r o => exact ⟨r, o, rfl, Option.some.inj h⟩
  | error e o => cases h

/-- A digest with few variables is that of a run with room. -/
theorem exists_run_of_digest {x : EStateM.Result (Failure MethodError) (Optimizer σ) Report}
    {d : Digest} (h : digest x = some d) (hnext : d.next ≤ Lit.varLimit) :
    ∃ r o, x = .ok r o ∧ o.Room ∧ Digest.of r o = d := by
  obtain ⟨r, o, heq, rfl⟩ := digest_eq_some h
  exact ⟨r, o, heq, hnext, rfl⟩

/-- A report without interrupted answers is one of an uninterrupted run. -/
theorem uninterrupted_of_answered {r : Report} {o : Optimizer σ}
    (h : (Digest.of r o).answered = true) : o.Uninterrupted := by
  intro q hq
  exact of_decide_eq_true (List.all_eq_true.1 h q hq)

end Optimizer

end WeightedCsp

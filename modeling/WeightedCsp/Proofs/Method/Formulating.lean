import WeightedCsp.Method.TwoStep
import WeightedCsp.Method.WeightedSum
import WeightedCsp.Proofs.Formulation.Declarations
import WeightedCsp.Proofs.Method.Runs

/-!
# From a model to the start of a search

An optimizer formulates its model as a formulation does on its own, and queues what is said
(`runs_addVariables`, `runs_addConstraints`).  `Prepared` is what holds from the first entity to the
first question: the session stands for everything that was said, and no question was asked.
-/

namespace WeightedCsp

theorem Session.addExprs_addExprs {σ : Type} (s : Session σ) (es fs : List Expr) :
    (s.addExprs es).addExprs fs = s.addExprs (es ++ fs) := by
  simp [Session.addExprs]

namespace Formulation

theorem entity_eq_ok {r : Except FormulationError (List Expr × Formulation)}
    {k : Step FormulationError Formulation (List Expr)} {f g : Formulation} {es : List Expr} :
    (match r with
    | .error e => .error (.error e) f
    | .ok (own, f) =>
      match k f with
      | .ok others f => .ok (own ++ others) f
      | .error e f => .error e f :
        EStateM.Result (Failure FormulationError) Formulation (List Expr)) = .ok es g ↔
    ∃ own f' others, r = .ok (own, f') ∧ k f' = .ok others g ∧ es = own ++ others := by
  constructor
  · intro h
    split at h
    · cases h
    · next own f' =>
      split at h
      · next others f'' hk =>
        cases h
        exact ⟨own, f', others, rfl, hk, rfl⟩
      · cases h
  · rintro ⟨own, f', others, rfl, hk, rfl⟩
    simp only [hk]

theorem addVariables_cons_eq_ok {x : Variable} {xs : List Variable} {f g : Formulation}
    {es : List Expr} : addVariables (x :: xs) f = .ok es g ↔ ∃ own f' others,
      f.addVariable x = .ok (own, f') ∧ addVariables xs f' = .ok others g ∧ es = own ++ others :=
  entity_eq_ok

theorem addConstraints_cons_eq_ok {c : Constraint} {cs : List Constraint} {f g : Formulation}
    {es : List Expr} : addConstraints (c :: cs) f = .ok es g ↔ ∃ own f' others,
      f.addConstraint c = .ok (own, f') ∧ addConstraints cs f' = .ok others g ∧
        es = own ++ others :=
  entity_eq_ok

end Formulation

namespace Optimizer

variable {σ β : Type} {o : Optimizer σ} {fair : Optimizer σ → Prop}

/-! ### Entities -/

/-- What is queued with a new formulation. -/
def Admits (es : List Expr) (f : Formulation) (o o' : Optimizer σ) : Prop :=
  o' = { o with formulation := f, session := o.session.addExprs es }

/-- An entity that can be formulated is formulated and what is said of it queued. -/
theorem runs_entity {r : Except FormulationError (List Expr × Formulation)} {k : Action σ β}
    {post : β → Optimizer σ → Prop} (hok : o.Room → ∃ es f, r = .ok (es, f))
    (h : ∀ es f, r = .ok (es, f) →
      Runs fair k { o with formulation := f, session := o.session.addExprs es } post) :
    Runs fair (match r with
      | .error e => Step.fail (.formulation e)
      | .ok (es, f) => do
        modify fun o => { o with formulation := f }
        queue es
        k) o post := by
  cases r with
  | error e =>
    refine runs_fail fun hroom _ => ?_
    obtain ⟨es, f, hr⟩ := hok hroom
    cases hr
  | ok p =>
    refine runs_modify_bind ⟨Nat.le_refl _, List.prefix_refl _, rfl⟩ (runs_queue_bind ?_)
    exact h p.1 p.2 rfl

/-- Variables that can be formulated are, and what they say is admitted. -/
theorem runs_addVariables {xs : List Variable}
    (hok : o.Room → ∃ es f, Formulation.addVariables xs o.formulation = .ok es f) :
    Runs fair (addVariables xs) o fun _ o' => ∃ es f,
      Formulation.addVariables xs o.formulation = .ok es f ∧ Admits es f o o' := by
  induction xs generalizing o with
  | nil => exact runs_pure fun _ => ⟨[], o.formulation, rfl, by simp [Admits, Session.addExprs]⟩
  | cons x xs ih =>
    refine runs_get_bind (runs_entity (fun hroom => ?_) fun own f hown => ?_)
    · obtain ⟨es, g, hall⟩ := hok hroom
      obtain ⟨own, f, -, hown, -⟩ := Formulation.addVariables_cons_eq_ok.1 hall
      exact ⟨own, f, hown⟩
    · refine (ih fun hroom => ?_).mono fun _ o' _ _ h => ?_
      · obtain ⟨es, g, hall⟩ := hok hroom
        obtain ⟨own', f', others, hown', hothers, -⟩ := Formulation.addVariables_cons_eq_ok.1 hall
        rw [hown] at hown'
        cases hown'
        exact ⟨others, g, hothers⟩
      · obtain ⟨others, g, hothers, hadmits⟩ := h
        refine ⟨own ++ others, g, ?_, ?_⟩
        · exact Formulation.addVariables_cons_eq_ok.2 ⟨own, f, others, hown, hothers, rfl⟩
        · rw [hadmits, Admits, Session.addExprs_addExprs]

/-- Constraints that can be formulated are, and what they say is admitted. -/
theorem runs_addConstraints {cs : List Constraint}
    (hok : o.Room → ∃ es f, Formulation.addConstraints cs o.formulation = .ok es f) :
    Runs fair (addConstraints cs) o fun _ o' => ∃ es f,
      Formulation.addConstraints cs o.formulation = .ok es f ∧ Admits es f o o' := by
  induction cs generalizing o with
  | nil => exact runs_pure fun _ => ⟨[], o.formulation, rfl, by simp [Admits, Session.addExprs]⟩
  | cons c cs ih =>
    refine runs_get_bind (runs_entity (fun hroom => ?_) fun own f hown => ?_)
    · obtain ⟨es, g, hall⟩ := hok hroom
      obtain ⟨own, f, -, hown, -⟩ := Formulation.addConstraints_cons_eq_ok.1 hall
      exact ⟨own, f, hown⟩
    · refine (ih fun hroom => ?_).mono fun _ o' _ _ h => ?_
      · obtain ⟨es, g, hall⟩ := hok hroom
        obtain ⟨own', f', others, hown', hothers, -⟩ := Formulation.addConstraints_cons_eq_ok.1 hall
        rw [hown] at hown'
        cases hown'
        exact ⟨others, g, hothers⟩
      · obtain ⟨others, g, hothers, hadmits⟩ := h
        refine ⟨own ++ others, g, ?_, ?_⟩
        · exact Formulation.addConstraints_cons_eq_ok.2 ⟨own, f, others, hown, hothers, rfl⟩
        · rw [hadmits, Admits, Session.addExprs_addExprs]

/-- A computation on the formulation that fails by an overflow only. -/
theorem runs_formulating_bind {α : Type} {r : Except (Failure FormulationError) α}
    {k : α → Action σ β} {post : β → Optimizer σ → Prop} {q : FormulationError → Prop}
    (hr : Failure.Tame q r) (herror : o.Room → ∀ e, r ≠ .error (.error e))
    (h : ∀ a, r = .ok a → Runs fair (k a) o post) :
    Runs fair (liftM (formulating r) >>= k) o post := by
  cases r with
  | ok a => exact h a rfl
  | error e =>
    cases e with
    | fault t => exact hr _ rfl
    | error e => exact ⟨.refl o, fun hroom _ => absurd rfl (herror hroom e)⟩

/-! ### Before the first question -/

variable {b : Backend σ} {clauses : σ → List Clause} {m : Model} {f : Formulation}
  {exprs : List Expr} {phase : Phase}

/-- A new optimizer is one for a supported model, on a session that the backend opens. -/
theorem new_eq_ok {s₀ : σ} {options : MethodOptions} :
    new b s₀ m options = .ok o ↔ Formulation.checkSupported m = .ok () ∧
      ∃ s, Session.start b s₀ = .ok s ∧ o = initial m options s (b.elapsed s₀) := by
  unfold new
  cases Formulation.checkSupported m <;> cases Session.start b s₀ <;>
    simp [Except.mapError, bind, Except.bind, pure, Except.pure, eq_comm]

/-- The session stands for what was said of the model, and nothing was asked. -/
structure Prepared (clauses : σ → List Clause) (m : Model) (f : Formulation) (exprs : List Expr)
    (phase : Phase) (o : Optimizer σ) : Prop where
  /-- The model. -/
  model : o.model = m
  /-- What of the model is formulated. -/
  formulation : o.formulation = f
  /-- The session stands for the expressions. -/
  stands : o.session.Stands clauses m.valuesOf (Expr.declaredBy exprs) exprs []
  /-- Where the method stands. -/
  phase : o.phase = phase
  /-- Nothing was asked, so there is no solution. -/
  asked : o.questions = [] ∧ o.solves = 0 ∧ o.best = none ∧ o.timedOut = false

/-- A new optimizer is prepared, with nothing formulated. -/
theorem prepared_new (hb : b.Sound clauses) {s₀ : σ} (h₀ : clauses s₀ = [])
    {options : MethodOptions} (h : new b s₀ m options = .ok o) :
    Prepared clauses m .empty [] .start o ∧ Formulation.checkSupported m = .ok () := by
  obtain ⟨hsupported, s, hstart, rfl⟩ := new_eq_ok.1 h
  exact ⟨⟨rfl, rfl, Session.stands_start hb h₀ hstart, rfl, rfl, rfl, rfl, rfl⟩, hsupported⟩

/-- With what is admitted, the optimizer is prepared for more. -/
theorem Prepared.admits (h : Prepared clauses m f exprs phase o) {es : List Expr}
    (hes : Expr.Accepts m.valuesOf (Expr.declaredBy exprs) es) {g : Formulation}
    {o' : Optimizer σ} (hadmits : Admits es g o o') :
    Prepared clauses m g (exprs ++ es) phase o' := by
  obtain rfl := hadmits
  refine ⟨h.model, rfl, ?_, h.phase, h.asked⟩
  rw [Expr.declaredBy_append]
  exact h.stands.addExprs hes

theorem Prepared.enter (h : Prepared clauses m f exprs phase o) (next : Phase)
    (took : Option Nat) : Prepared clauses m f exprs next { o with phase := next, took := took } :=
  ⟨h.model, h.formulation, h.stands, rfl, h.asked⟩

/-- Variables and some of the constraints of a model can be formulated. -/
theorem runs_entities (hm : m.Formulable) (h : Prepared clauses m .empty [] .start o)
    {g : Model → List Constraint} (hsub : (g m).Sublist m.constraints) {k : Action σ β}
    {post : β → Optimizer σ → Prop}
    (hk : ∀ o', (o'.Room → Prepared clauses m
      ⟨m.vars, g m, (g m).filterMap Formulation.penaltyOf?⟩ (Formulation.sayings m (g m)) .start
        o') →
      Runs fair k o' post) :
    Runs fair (do
      expect .start
      addVariables (← get).model.vars
      addConstraints (g (← get).model)
      k) o post := by
  have hcs : ∀ c ∈ g m, c ∈ m.constraints := fun c hc => hsub.subset hc
  refine runs_expect_bind (fun _ => h.phase) (runs_get_bind ?_)
  rw [h.model]
  have hvars := Formulation.addVariables_model hm
  refine (runs_addVariables fun _ => ?_).bind fun _ o₁ _ h₁ => runs_get_bind ?_
  · rw [h.formulation]
    exact ⟨_, _, hvars⟩
  -- What the variables say is accepted with the names that they introduce themselves.
  have h₁' : o₁.Room → Prepared clauses m ⟨m.vars, [], []⟩
      (m.vars.flatMap Formulation.variableExprs) .start o₁ := by
    intro hroom
    obtain ⟨es, f, hes, hadmits⟩ := h₁ hroom
    rw [h.formulation, hvars] at hes
    cases hes
    exact h.admits (hm.accepts_variableExprs _) hadmits
  have hcons := Formulation.addConstraints_eq (f := ⟨m.vars, [], []⟩)
    (hm.constraintsNodup.sublist (hsub.map _)) hm.varsNodup (fun c hc => hm.declared c (hcs c hc))
    fun c hc => hm.supported c (hcs c hc)
  refine (runs_addConstraints fun hroom => ?_).bind fun _ o₂ hlater h₂ => hk o₂ fun hroom => ?_
  · rw [(h₁' hroom).model, (h₁' hroom).formulation]
    exact ⟨_, _, hcons⟩
  · have hprepared := h₁' (hlater.room hroom)
    obtain ⟨es, f, hes, hadmits⟩ := h₂ hroom
    rw [hprepared.model, hprepared.formulation, hcons] at hes
    cases hes
    refine hprepared.admits (Expr.accepts_flatMap fun c hc => ?_) hadmits
    exact hm.accepts_constraintExprs (Model.Formulable.introduced_variableExprs m) (hcs c hc)

/-- **Formulating everything.** -/
theorem runs_formulateAll (hm : m.Formulable) (h : Prepared clauses m .empty [] .start o) :
    Runs fair (formulateAll b) o fun _ o' => ∃ os, Formulation.objectiveExprs m = .ok os ∧
      Prepared clauses m (.ofModel m) (Formulation.entityExprs m ++ os) .formulated o' := by
  unfold formulateAll
  refine runs_entities (g := Model.constraints) hm h (List.Sublist.refl _) ?_
  intro o₁ h₁
  rw [Formulation.filterMap_penaltyOf? hm.supported] at h₁
  refine runs_get_bind ?_
  dsimp only
  by_cases hobj : o₁.formulation.hasObjective
  · simp only [hobj, ↓reduceIte]
    refine runs_formulating_bind (Formulation.tame_objective _) (fun _ e herror => ?_)
      fun os hos => ?_
    · obtain ⟨t, ht⟩ := Formulation.objective_error hobj herror
      cases ht
    · refine runs_queue_bind (runs_enter fun took hroom => ?_)
      have hprepared := h₁ hroom
      have hformulation : o₁.formulation = .ofModel m := hprepared.formulation
      rw [hformulation] at hobj hos
      have hexprs : Formulation.objectiveExprs m = .ok os := by
        rw [Formulation.objectiveExprs, if_pos hobj, hos]
      have haccepts := (Expr.accepts_append.1 (hm.accepts_model hexprs).1).2
      exact ⟨os, hexprs, (hprepared.admits haccepts (by rw [Admits, ← hformulation])).enter _ _⟩
  · simp only [hobj, Bool.false_eq_true, ↓reduceIte]
    refine runs_enter fun took hroom => ?_
    have hprepared := h₁ hroom
    rw [hprepared.formulation] at hobj
    refine ⟨[], if_neg hobj, ?_⟩
    rw [List.append_nil]
    exact hprepared.enter _ _

/-- **Formulating what has to hold.** -/
theorem runs_formulateHard (hm : m.Formulable) (h : Prepared clauses m .empty [] .start o) :
    Runs fair (formulateHard b) o fun _ o' =>
      Prepared clauses m ⟨m.vars, m.hardConstraints, []⟩ (Formulation.sayings m m.hardConstraints)
        .formulated o' := by
  unfold formulateHard
  refine runs_entities (g := Model.hardConstraints) hm h List.filter_sublist ?_
  intro o₁ h₁
  have hnone : m.hardConstraints.filterMap Formulation.penaltyOf? = [] := by
    refine List.filterMap_eq_nil_iff.2 fun c hc => ?_
    rw [Formulation.penaltyOf?, (Model.mem_hardConstraints.1 hc).2]
  rw [hnone] at h₁
  exact runs_enter fun took hroom => (h₁ hroom).enter _ _

/-- Encoding compiles everything that was formulated. -/
theorem runs_encode (hb : b.Sound clauses)
    (h : o.Room → Prepared clauses m f exprs .formulated o) :
    Runs fair (encode b) o fun _ o' => Prepared clauses m f exprs .encoded o' := by
  refine runs_expect_bind (fun hroom => (h hroom).phase) ?_
  refine (runs_commit hb fun hroom => (h hroom).stands).bind fun _ o₁ hlater h₁ => ?_
  refine runs_enter fun took hroom => ?_
  obtain ⟨hframe, hstands⟩ := h₁ hroom
  have hprepared := h (hlater.room hroom)
  rw [hframe]
  exact ⟨hprepared.model, hprepared.formulation, hstands, rfl, hprepared.asked⟩

theorem runs_beginSearch (h : o.Room → Prepared clauses m f exprs .encoded o) :
    Runs fair (beginSearch b) o fun _ o' => Prepared clauses m f exprs .searching o' := by
  refine runs_expect_bind (fun hroom => (h hroom).phase) ?_
  refine runs_modify_bind ⟨Nat.le_refl _, List.prefix_refl _, rfl⟩ (runs_enter fun took hroom => ?_)
  have hprepared := h hroom
  exact ⟨hprepared.model, hprepared.formulation, hprepared.stands, rfl, hprepared.asked⟩

end Optimizer

end WeightedCsp

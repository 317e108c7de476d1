import WeightedCsp.Proofs.Faults
import WeightedCsp.Proofs.Instance.Charges
import WeightedCsp.Proofs.Method.Moves
import WeightedCsp.Proofs.Method.TwoStep

/-!
# What a method says compiles

Whatever a strategy says of a model is accepted: names are declared before they are used, and over
the same values every time.  So a run can fail only from outside (`Outward`): a number overflows,
the backend or the local search fails, a label in a log is no integer, or a backend refuses a tier
(`Strategy.complete_compiles`).  Nothing is asked of the backend here.  The names that are declared
(`Fluent`) do not depend on its answers, and a solution has a value for each of them, because it is
read off the declared variables (`Session.Ready.solve_covers`).

`Passes x o post` says that the step `x` from `o` ends in `post` or fails from outside.  There is
one lemma for each step, in the order of the strategies.
-/

namespace WeightedCsp

/-! ### Solutions -/

/-- Entering entries one by one gives a value to every name among them. -/
theorem NameMap.exists_get?_foldl_insert {α : Type} {entries : List (String × α)} {name : String}
    {m : NameMap α} (h : name ∈ entries.map (·.1) ∨ ∃ v, m.get? name = some v) :
    ∃ v, (entries.foldl (fun m e => insert e.1 e.2 m) m).get? name = some v := by
  induction entries generalizing m with
  | nil => simpa using h
  | cons e entries ih =>
    refine ih ?_
    by_cases heq : name = e.1
    · rw [heq]
      exact .inr ⟨e.2, get?_insert_self m e.1 e.2⟩
    · rw [get?_insert_of_ne m heq]
      simpa [heq] using h

/-- The solution has a value for each of the names. -/
def Solution.Covers (s : Solution) (names : List String) : Prop :=
  ∀ name ∈ names, s.get? name = some (s.value name)

namespace Session

variable {σ : Type} {b : Backend σ} {s s' : Session σ} {values : String → List Int}
  {names : List String}

/-- A decoded solution has a value for each variable that is declared. -/
theorem covers_decode {vars : List (String × OrderVar)} {value : Nat → Ternary}
    (h : names ⊆ vars.map (·.1)) : (decode vars value).Covers names := by
  intro name hname
  have hkeys : name ∈ (vars.map fun e =>
      (e.1, e.2.decode fun l => litValue value l = Ternary.true)).map (·.1) := by
    rw [List.map_map]
    exact h hname
  obtain ⟨v, hv⟩ := NameMap.exists_get?_foldl_insert (m := []) (.inl hkeys)
  rw [Solution.value, show (decode vars value).get? name = some v from hv, Option.getD_some]

/-- Whatever the backend answers, a solution has a value for each declared name. -/
theorem Ready.solve_covers (hs : Ready values names s) {limit : Option Nat} {sol : Solution}
    (h : solve b limit s = .ok (.sat sol) s') : sol.Covers names := by
  obtain ⟨s₁, hcommit, ⟨-, hun, -⟩ | ⟨-, answer, -, heq, -⟩⟩ := solve_eq_ok h
  · cases hun
  · cases answer with
    | sat value =>
      cases heq
      exact covers_decode (hs.commit_ok hcommit).2
    | unsat => cases heq
    | interrupted => cases heq

end Session

/-! ### Instances -/

namespace Instance

variable {c : Constraint} {cs : List Constraint} {s t : Scribe} {e : ScribeError}

/-- A constraint with a new name, over variables that are known, can be written. -/
theorem writeConstraint_error (hnew : c.name ∉ s.constraints.map (·.name))
    (hnodup : (s.vars.map (·.name)).Nodup) (hvars : ∀ x ∈ c.vars, x ∈ s.vars) :
    Scribe.writeConstraint c s ≠ .error (.error e) t := by
  intro h
  rw [Scribe.writeConstraint, Step.get_bind_apply, find?_key_eq_none hnew] at h
  rcases Step.bind_eq_error.1 h with hwrite | ⟨u, s₁, -, h₁⟩
  · cases (writeVariables_known hnodup hvars).symm.trans hwrite
  rcases Step.bind_eq_error.1 h₁ with hcon | ⟨con, s₂, -, h₂⟩
  · obtain ⟨⟨f, -, hf⟩, -⟩ := Step.checked_eq_error.1 hcon
    cases hf
  · cases h₂

/-- Constraints over known variables are entered without an error. -/
theorem enterConstraints_error (hcs : ∀ c ∈ cs, c.WellFormed ∧ ∀ x ∈ c.vars, x ∈ s.vars)
    (hvars : (s.vars.map (·.name)).Nodup) (hnodup : ((s.constraints ++ cs).map (·.name)).Nodup) :
    Scribe.enterConstraints (.ofLists (s.vars.map Scribe.varOf) (s.constraints.map conFor)) cs s ≠
      .error (.error e) t := by
  induction cs generalizing s with
  | nil =>
    intro h
    cases h
  | cons c cs ih =>
    obtain ⟨⟨hc, hdeclared⟩, hrest⟩ := List.forall_mem_cons.1 hcs
    have hnew : c.name ∉ s.constraints.map (·.name) := notMem_of_nodup_append hnodup
    have hcons : (s.constraints.map (·.name)).Nodup := by
      rw [List.map_append] at hnodup
      exact (List.nodup_append.1 hnodup).1
    have hentered := entering_eq_ok.2 (addCon_conFor hvars hcons hnew hdeclared)
    rw [List.append_cons] at hnodup
    intro h
    rcases Step.bind_eq_error.1 h with hwrite | ⟨k, s₁, hwrite, h₁⟩
    · exact writeConstraint_error hnew hvars hdeclared hwrite
    obtain ⟨-, rfl, rfl⟩ := (writeConstraint_eq_ok hc hnew hvars hdeclared).1 hwrite
    rw [hentered] at h₁
    exact ih (s := { s with constraints := s.constraints ++ [c] }) hrest hvars hnodup h₁

/-- A model is written, or a number of it leaves the machine range. -/
theorem writeModel_error {m : Model} (hm : m.WellFormed) :
    Scribe.writeModel m .start ≠ .error (.error e) t := by
  intro h
  have hvars := enterVariables_eq_ok (s := .start) [] hm.varsNodup List.nodup_nil
  rcases Step.bind_eq_error.1 h with henter | ⟨j, s₁, henter, h₁⟩
  · cases hvars.symm.trans henter
  cases hvars.symm.trans henter
  exact enterConstraints_error (s := ⟨m.vars, [], 0⟩)
    (fun c hc => ⟨hm.constraints c hc, hm.declared c hc⟩) hm.varsNodup hm.constraintsNodup h₁

end Instance

namespace Optimizer

variable {σ α β : Type}

/-! ### Failures from outside -/

/-- Failures that do not come from what is said of the model. -/
inductive Outward : Failure MethodError → Prop
  /-- Machine arithmetic or the clock overflows. -/
  | overflow {t : Fault} (h : t.IsOverflow) : Outward (.fault t)
  /-- A number is too large to be encoded. -/
  | encoding (text : String) : Outward (.error (.session (.compile text (.encoding .overflow))))
  /-- The backend fails. -/
  | backend (message : String) : Outward (.error (.session (.backend message)))
  /-- The backend refuses a clause. -/
  | refused (message : String) : Outward (.error (.session (.refused message)))
  /-- The backend refuses a tier. -/
  | stuckTier (price : Nat) : Outward (.error (.stuckTier price))
  /-- Local search fails. -/
  | localSearch (e : LocalSearch.Error) : Outward (.error (.localSearch e))
  /-- A label in a log is no integer. -/
  | label (text var : String) (cause : Decimal.ReadError) :
    Outward (.error (.label text var cause))

/-- What is not the fault of the expressions comes from outside, as encodings fail by overflows
only. -/
theorem outward_of_external {e : SessionError} (h : e.External) (hmild : e.Mild) :
    Outward (.error (.session e)) := by
  cases h with
  | encoding text cause =>
    obtain rfl : cause = .overflow := hmild
    exact .encoding text
  | refused message => exact .refused message
  | backend message => exact .backend message

/-- The step ends with a result and a state that satisfy `post`, or fails from outside. -/
def Passes (x : Action σ α) (o : Optimizer σ) (post : α → Optimizer σ → Prop) : Prop :=
  match x o with
  | .ok a o' => post a o'
  | .error e _ => Outward e

section Rules

variable {x : Action σ α} {f : α → Action σ β} {o o' : Optimizer σ}
  {post post' : α → Optimizer σ → Prop} {last : β → Optimizer σ → Prop}

theorem Passes.mono (h : Passes x o post) (himp : ∀ a o', post a o' → post' a o') :
    Passes x o post' := by
  unfold Passes at h ⊢
  split at h
  · exact himp _ _ h
  · exact h

/-- **Sequencing.** -/
theorem Passes.bind (hx : Passes x o post) (hf : ∀ a o', post a o' → Passes (f a) o' last) :
    Passes (x >>= f) o last := by
  show Passes (EStateM.bind x f) o last
  unfold Passes EStateM.bind at *
  cases hx' : x o with
  | error e o₁ =>
    rw [hx'] at hx
    exact hx
  | ok a o₁ =>
    rw [hx'] at hx
    exact hf a o₁ hx

/-- Sequencing after a step whose end is known. -/
theorem passes_bind_of_eq {a : α} {p : Optimizer σ} (hx : x o = .ok a p)
    (h : Passes (f a) p last) : Passes (x >>= f) o last := by
  have hend : Passes x o fun a' o₁ => a' = a ∧ o₁ = p := by
    unfold Passes
    rw [hx]
    exact ⟨rfl, rfl⟩
  refine hend.bind ?_
  rintro _ _ ⟨rfl, rfl⟩
  exact h

theorem passes_pure {a : α} (h : post a o) : Passes (pure a) o post := h

theorem passes_get_bind {f : Optimizer σ → Action σ β} (h : Passes (f o) o last) :
    Passes (get >>= f) o last := h

theorem passes_fail {e : MethodError} (h : Outward (.error e)) : Passes (Step.fail e) o post := h

theorem passes_checked {c : Checked α} (hc : c.Tame) (h : ∀ a, c = .ok a → post a o) :
    Passes (liftM c) o post := by
  cases c with
  | ok a => exact h a rfl
  | error t => exact .overflow (hc t rfl)

/-- Sequencing after a computation whose result is known if it succeeds. -/
theorem passes_checked_bind {c : Checked α} (hc : c.Tame)
    (h : ∀ a, c = .ok a → Passes (f a) o last) : Passes (liftM c >>= f) o last := by
  cases c with
  | ok a => exact h a rfl
  | error t => exact .overflow (hc t rfl)

theorem passes_except_bind {q : MethodError → Prop} {r : Except (Failure MethodError) α}
    (hr : Failure.Tame q r)
    (hok : ∀ a, r = .ok a → Passes (f a) o last)
    (herror : ∀ e, r = .error (.error e) → Outward (.error e)) :
    Passes (liftM r >>= f) o last := by
  cases r with
  | ok a => exact hok a rfl
  | error e =>
    cases e with
    | fault t => exact .overflow (hr _ rfl)
    | error e => exact herror e rfl

/-- A step of the session passes if its errors are external. -/
theorem passes_inSession {y : Step SessionError (Session σ) α} (htame : y.Tame SessionError.Mild)
    (hok : ∀ a s, y o.session = .ok a s → post a { o with session := s })
    (herror : ∀ e s, y o.session = .error (.error e) s → e.External) :
    Passes (inSession y) o post := by
  unfold Passes inSession
  cases hy : y o.session with
  | ok a s => exact hok a s hy
  | error e s =>
    cases e with
    | fault t => exact .overflow (htame _ _ s hy)
    | error e => exact outward_of_external (herror e s hy) (htame _ _ s hy)

theorem passes_expect_bind {phase : Phase} {f : Unit → Action σ β} (hphase : o.phase = phase)
    (h : Passes (f ()) o last) : Passes (expect phase >>= f) o last :=
  passes_bind_of_eq (if_pos hphase) h

end Rules

/-! ### What was said so far -/

/-- The optimizer works on the model `m`, of which `f` is formulated; its queue is accepted, and the
names are declared or wait to be declared. -/
structure Fluent (m : Model) (f : Formulation) (names : List String) (o : Optimizer σ) : Prop where
  model : o.model = m
  formulation : o.formulation = f
  ready : o.session.Ready m.valuesOf names

variable {b : Backend σ} {m : Model} {f g : Formulation} {names : List String} {o : Optimizer σ}

/-- A new optimizer has said nothing yet. -/
theorem fluent_new {s₀ : σ} {options : MethodOptions} (h : new b s₀ m options = .ok o) :
    Fluent m .empty [] o ∧ o.phase = .start ∧ Formulation.checkSupported m = .ok () := by
  obtain ⟨hsupported, s, hstart, rfl⟩ := new_eq_ok.1 h
  exact ⟨⟨rfl, rfl, Session.ready_start hstart⟩, rfl, hsupported⟩

/-- What is queued is accepted, and its names wait to be declared. -/
theorem passes_queue_bind (h : Fluent m f names o) {es : List Expr}
    (hes : Expr.Accepts m.valuesOf names es) {k : Unit → Action σ β}
    {last : β → Optimizer σ → Prop}
    (hk : ∀ o', Fluent m f (names ++ Expr.declaredBy es) o' → o'.phase = o.phase →
      Passes (k ()) o' last) : Passes (queue es >>= k) o last := by
  refine passes_bind_of_eq (p := { o with session := o.session.addExprs es }) rfl (hk _ ?_ rfl)
  exact ⟨h.model, h.formulation, h.ready.addExprs hes⟩

theorem passes_bindValue_bind (h : Fluent m f names o) {name : String} (hname : name ∈ names)
    {op : Comparator} {value : Int} {k : Unit → Action σ β} {last : β → Optimizer σ → Prop}
    (hk : ∀ o', Fluent m f names o' → Passes (k ()) o' last) :
    Passes (bindValue name op value >>= k) o last := by
  have haccepts : Expr.Accepts m.valuesOf names [Expr.cmp name op value] :=
    ⟨Expr.fits_cmp hname op value, trivial⟩
  refine passes_queue_bind h haccepts fun o' h' _ => hk o' ?_
  rwa [show Expr.declaredBy [Expr.cmp name op value] = [] from rfl, List.append_nil] at h'

theorem passes_enter (h : Fluent m f names o) (phase : Phase) :
    Passes (enter b phase) o fun _ o' => Fluent m f names o' ∧ o'.phase = phase :=
  ⟨⟨h.model, h.formulation, h.ready⟩, rfl⟩

theorem passes_record_bind (h : Fluent m f names o) {s : Solution} {k : Unit → Action σ β}
    {last : β → Optimizer σ → Prop} (hk : ∀ o', Fluent m f names o' → Passes (k ()) o' last) :
    Passes (record s >>= k) o last :=
  passes_bind_of_eq rfl (hk _ ⟨h.model, h.formulation, h.ready⟩)

theorem passes_valueOf_bind {s : Solution} {name : String} (hs : s.Covers names)
    (hname : name ∈ names) {k : Int → Action σ β} {last : β → Optimizer σ → Prop}
    (hk : ∀ v, Passes (k v) o last) : Passes (valueOf s name >>= k) o last := by
  unfold valueOf
  rw [hs name hname]
  exact hk _

/-! ### Formulating -/

theorem addVariables_apply {xs : List Variable} {es : List Expr}
    (h : Formulation.addVariables xs o.formulation = .ok es f) :
    addVariables xs o = .ok () { o with formulation := f, session := o.session.addExprs es } := by
  induction xs generalizing o es with
  | nil =>
    cases h
    simp [addVariables, Session.addExprs]
  | cons x xs ih =>
    obtain ⟨own, f', others, hown, hothers, rfl⟩ := Formulation.addVariables_cons_eq_ok.1 h
    rw [addVariables, Step.get_bind_apply, hown]
    have hrest := ih (o := { o with formulation := f', session := o.session.addExprs own }) hothers
    rw [Session.addExprs_addExprs] at hrest
    exact hrest

theorem addConstraints_apply {cs : List Constraint} {es : List Expr}
    (h : Formulation.addConstraints cs o.formulation = .ok es f) :
    addConstraints cs o = .ok () { o with formulation := f, session := o.session.addExprs es } := by
  induction cs generalizing o es with
  | nil =>
    cases h
    simp [addConstraints, Session.addExprs]
  | cons c cs ih =>
    obtain ⟨own, f', others, hown, hothers, rfl⟩ := Formulation.addConstraints_cons_eq_ok.1 h
    rw [addConstraints, Step.get_bind_apply, hown]
    have hrest := ih (o := { o with formulation := f', session := o.session.addExprs own }) hothers
    rw [Session.addExprs_addExprs] at hrest
    exact hrest

theorem passes_addVariables (h : Fluent m f names o) {xs : List Variable} {es : List Expr}
    (hadd : Formulation.addVariables xs f = .ok es g) (hes : Expr.Accepts m.valuesOf names es) :
    Passes (addVariables xs) o fun _ o' => Fluent m g (names ++ Expr.declaredBy es) o' := by
  rw [← h.formulation] at hadd
  unfold Passes
  rw [addVariables_apply hadd]
  exact ⟨h.model, rfl, h.ready.addExprs hes⟩

theorem passes_addConstraints (h : Fluent m f names o) {cs : List Constraint} {es : List Expr}
    (hadd : Formulation.addConstraints cs f = .ok es g) (hes : Expr.Accepts m.valuesOf names es) :
    Passes (addConstraints cs) o fun _ o' => Fluent m g (names ++ Expr.declaredBy es) o' := by
  rw [← h.formulation] at hadd
  unfold Passes
  rw [addConstraints_apply hadd]
  exact ⟨h.model, rfl, h.ready.addExprs hes⟩

theorem passes_formulating_bind {r : Except (Failure FormulationError) α} {k : α → Action σ β}
    {last : β → Optimizer σ → Prop} {q : FormulationError → Prop} (hr : Failure.Tame q r)
    (herror : ∀ e, r ≠ .error (.error e))
    (h : ∀ a, r = .ok a → Passes (k a) o last) :
    Passes (liftM (formulating r) >>= k) o last := by
  cases r with
  | ok a => exact h a rfl
  | error e =>
    cases e with
    | fault t => exact .overflow (hr _ rfl)
    | error e => exact absurd rfl (herror e)

/-- Variables and some of the constraints of a model can be formulated. -/
theorem passes_entities (cs : Model → List Constraint) (hm : m.Formulable)
    (h : Fluent m .empty [] o) (hphase : o.phase = .start) (hsub : (cs m).Sublist m.constraints)
    {k : Action σ β} {last : β → Optimizer σ → Prop}
    (hk : ∀ o', Fluent m ⟨m.vars, cs m, (cs m).filterMap Formulation.penaltyOf?⟩
      (Expr.declaredBy (Formulation.sayings m (cs m))) o' → Passes k o' last) :
    Passes (do
      expect .start
      addVariables (← get).model.vars
      addConstraints (cs (← get).model)
      k) o last := by
  have hmem : ∀ c ∈ cs m, c ∈ m.constraints := fun c hc => hsub.subset hc
  refine passes_expect_bind hphase (passes_get_bind ?_)
  rw [h.model]
  refine (passes_addVariables h (Formulation.addVariables_model hm)
    (hm.accepts_variableExprs _)).bind fun _ o₁ h₁ => passes_get_bind ?_
  rw [h₁.model]
  have hcons := Formulation.addConstraints_eq (f := ⟨m.vars, [], []⟩)
    (hm.constraintsNodup.sublist (hsub.map _)) hm.varsNodup (fun c hc => hm.declared c (hmem c hc))
    fun c hc => hm.supported c (hmem c hc)
  refine (passes_addConstraints h₁ hcons (Expr.accepts_flatMap fun c hc => ?_)).bind
    fun _ o₂ h₂ => hk o₂ ?_
  · exact hm.accepts_constraintExprs (Model.Formulable.introduced_variableExprs m) (hmem c hc)
  · rw [Formulation.sayings, Expr.declaredBy_append]
    exact h₂

/-- **Formulating** a whole model, with its objective if it has soft constraints. -/
theorem passes_formulateAll (hm : m.Formulable) (h : Fluent m .empty [] o)
    (hphase : o.phase = .start) :
    Passes (formulateAll b) o fun _ o' => ∃ names, Fluent m (.ofModel m) names o' ∧
      (m.softConstraints ≠ [] → Names.objective ∈ names) ∧ o'.phase = .formulated := by
  unfold formulateAll
  refine passes_entities Model.constraints hm h hphase (List.Sublist.refl _)
    fun o₁ h₁ => ?_
  rw [Formulation.filterMap_penaltyOf? hm.supported] at h₁
  refine passes_get_bind ?_
  dsimp only
  have hformulation : o₁.formulation = .ofModel m := h₁.formulation
  rw [hformulation]
  by_cases hobj : (Formulation.ofModel m).hasObjective
  · simp only [hobj, ↓reduceIte]
    refine passes_formulating_bind (Formulation.tame_objective _) (fun e herror => ?_)
      fun os hos => ?_
    · obtain ⟨t, ht⟩ := Formulation.objective_error hobj herror
      cases ht
    · have hexprs : Formulation.objectiveExprs m = .ok os := by
        rw [Formulation.objectiveExprs, if_pos hobj, hos]
      -- The sum of the penalties comes after them, so it is over names already declared.
      obtain ⟨haccepts, hdeclared⟩ := hm.accepts_model hexprs
      refine passes_queue_bind h₁ (Expr.accepts_append.1 haccepts).2 fun o₂ h₂ _ => ?_
      refine (passes_enter h₂ _).mono fun _ o₃ h₃ => ⟨_, h₃.1, fun hsoft => ?_, h₃.2⟩
      exact List.mem_append_right _ (hdeclared hsoft)
  · simp only [hobj, Bool.false_eq_true, ↓reduceIte]
    refine (passes_enter h₁ _).mono fun _ o₃ h₃ => ⟨_, h₃.1, fun hsoft => ?_, h₃.2⟩
    exact absurd ((Formulation.hasObjective_ofModel m).2 hsoft) hobj

/-- **Formulating** the hard constraints only. -/
theorem passes_formulateHard (hm : m.Formulable) (h : Fluent m .empty [] o)
    (hphase : o.phase = .start) :
    Passes (formulateHard b) o fun _ o' => (∃ names, m.Introduced names ∧
      Fluent m (.ofTiers m []) names o') ∧ o'.phase = .formulated := by
  unfold formulateHard
  refine passes_entities Model.hardConstraints hm h hphase List.filter_sublist
    fun o₁ h₁ => ?_
  have hnone : m.hardConstraints.filterMap Formulation.penaltyOf? = [] := by
    refine List.filterMap_eq_nil_iff.2 fun c hc => ?_
    rw [Formulation.penaltyOf?, (Model.mem_hardConstraints.1 hc).2]
  refine (passes_enter h₁ _).mono fun _ o₂ h₂ => ⟨⟨_, (Formulation.speaks_hard hm).introduced, ?_⟩,
    h₂.2⟩
  obtain ⟨⟨hmodel, hformulation, hready⟩, -⟩ := h₂
  refine ⟨hmodel, ?_, hready⟩
  rw [hformulation, hnone]
  simp [Formulation.ofTiers]

/-! ### Encoding and asking -/

/-- A batch that was accepted is compiled, or fails from outside. -/
theorem passes_commit (h : Fluent m f names o) :
    Passes (inSession (Session.commit b)) o fun _ o' => Fluent m f names o' := by
  refine passes_inSession (Session.tame_commit b) (fun _ s hstep => ?_) fun e s hstep => ?_
  · exact ⟨h.model, h.formulation, (h.ready.commit_ok hstep).1⟩
  · exact h.ready.commit_error hstep

theorem passes_encode (h : Fluent m f names o) (hphase : o.phase = .formulated) :
    Passes (encode b) o fun _ o' => Fluent m f names o' ∧ o'.phase = .encoded :=
  passes_expect_bind hphase ((passes_commit h).bind fun _ _ h₁ => passes_enter h₁ _)

theorem passes_beginSearch_bind (h : Fluent m f names o) (hphase : o.phase = .encoded)
    {k : Unit → Action σ β} {last : β → Optimizer σ → Prop}
    (hk : ∀ o', Fluent m f names o' → Passes (k ()) o' last) :
    Passes (beginSearch b >>= k) o last := by
  have hbegin : Passes (beginSearch b) o fun _ o' => Fluent m f names o' := by
    refine passes_expect_bind hphase ?_
    exact ⟨h.model, h.formulation, h.ready⟩
  exact hbegin.bind fun _ o' h' => hk o' h'

theorem passes_assume (h : Fluent m f names o) {name : String} (hname : name ∈ names)
    (op : Comparator) (value : Int) :
    Passes (assume b name op value) o fun _ o' => Fluent m f names o' := by
  refine passes_inSession (Session.tame_assume b _ _ _) (fun _ s hstep => ?_) fun e s hstep => ?_
  · exact ⟨h.model, h.formulation, h.ready.assume_ok hstep⟩
  · exact h.ready.assume_error hname hstep

/-- **Questions.** A solution has a value for each declared name. -/
theorem passes_ask (h : Fluent m f names o) (bound : Option Int) :
    Passes (ask b bound) o fun outcome o' => Fluent m f names o' ∧
      ∀ s, outcome = .sat s → s.Covers names := by
  have hpose : Passes (pose b) o fun outcome o' => Fluent m f names o' ∧
      ∀ s, outcome = .sat s → s.Covers names := by
    refine passes_get_bind ?_
    split
    · exact passes_pure ⟨h, by simp⟩
    · refine passes_bind_of_eq (p := { o with solves := o.solves + 1 }) rfl ?_
      refine passes_inSession (Session.tame_solve b _) (fun outcome s hstep => ?_)
        fun e s hstep => ?_
      · refine ⟨⟨h.model, h.formulation, h.ready.solve_ok hstep⟩, fun sol hsol => ?_⟩
        rw [hsol] at hstep
        exact h.ready.solve_covers hstep
      · exact h.ready.solve_error hstep
  refine hpose.bind fun outcome o₁ h₁ => ?_
  exact ⟨⟨h₁.1.model, h₁.1.formulation, h₁.1.ready⟩, h₁.2⟩

/-- A first solution covers the declared names. -/
theorem passes_firstSolution (h : Fluent m f names o) :
    Passes (firstSolution b) o fun r o' => Fluent m f names o' ∧
      ∀ s, r = some s → s.Covers names := by
  refine (passes_ask h none).bind fun outcome o₁ h₁ => ?_
  cases outcome with
  | sat s =>
    refine passes_pure ⟨h₁.1, fun t ht => ?_⟩
    cases ht
    exact h₁.2 s rfl
  | unsat =>
    exact (passes_enter h₁.1 _).bind fun _ o₂ h₂ => passes_pure ⟨h₂.1, by simp⟩
  | interrupted =>
    exact (passes_enter h₁.1 _).bind fun _ o₂ h₂ => passes_pure ⟨h₂.1, by simp⟩

theorem passes_anySolution (h : Fluent m f names o) :
    Passes (anySolution b) o fun _ _ => True := by
  refine (passes_firstSolution h).bind fun r o₁ h₁ => ?_
  cases r with
  | none => exact passes_pure trivial
  | some s =>
    exact passes_record_bind h₁.1 fun o₂ h₂ => (passes_enter h₂ _).mono fun _ _ _ => trivial

/-- Each step of a descent binds a declared name. -/
theorem passes_descendFrom (h : Fluent m f names o) {name : String} (hname : name ∈ names)
    (fuel : Nat) (best : Int) :
    Passes (descendFrom b name fuel best) o fun _ o' => Fluent m f names o' := by
  induction fuel generalizing o best with
  | zero => exact passes_pure h
  | succ fuel ih =>
    unfold descendFrom
    split_ifs
    · exact passes_pure h
    · refine (passes_assume h hname _ _).bind fun _ o₁ h₁ => ?_
      refine (passes_ask h₁ _).bind fun outcome o₂ h₂ => ?_
      cases outcome with
      | sat s =>
        refine passes_valueOf_bind (h₂.2 s rfl) hname fun v => ?_
        refine passes_bindValue_bind h₂.1 hname fun o₃ h₃ => ?_
        exact passes_record_bind h₃ fun o₄ h₄ => ih h₄ v
      | unsat => exact passes_pure h₂.1
      | interrupted => exact passes_pure h₂.1

/-- **Descents** speak of one declared name, however often they ask. -/
theorem passes_descend (h : Fluent m f names o) {name : String} (hname : name ∈ names)
    (best : Int) : Passes (descend b name best) o fun _ o' => Fluent m f names o' :=
  passes_get_bind (passes_descendFrom h hname _ best)

theorem passes_noteTimeout (h : Fluent m f names o) (d : Descent) :
    Passes (noteTimeout d) o fun _ o' => Fluent m f names o' := by
  cases d with
  | optimal v => exact passes_pure h
  | interrupted v => exact ⟨h.model, h.formulation, h.ready⟩

theorem passes_finishDescents : Passes (finishDescents b) o fun _ _ => True := by
  refine passes_get_bind ?_
  split_ifs
  · exact trivial
  · exact trivial

/-! ### The weighted sum -/

/-- A search for the least objective speaks of the objective only where it was declared. -/
theorem passes_search (h : Fluent m (.ofModel m) names o) (hphase : o.phase = .encoded)
    (hname : m.softConstraints ≠ [] → Names.objective ∈ names) {k : Int → Action σ Unit}
    (hk : ∀ v o', Fluent m (.ofModel m) names o' → Names.objective ∈ names →
      Passes (k v) o' fun _ _ => True) :
    Passes (do
      beginSearch b
      if (← get).formulation.hasObjective then
        match ← firstSolution b with
        | none => return ()
        | some s => do
          let first ← valueOf s Names.objective
          record s
          k first
      else anySolution b) o fun _ _ => True := by
  refine passes_beginSearch_bind h hphase fun o₁ h₁ => passes_get_bind ?_
  split_ifs with hobj
  · rw [h₁.formulation] at hobj
    have hmem := hname ((Formulation.hasObjective_ofModel m).1 hobj)
    refine (passes_firstSolution h₁).bind fun r o₂ h₂ => ?_
    cases r with
    | none => exact passes_pure trivial
    | some s =>
      refine passes_valueOf_bind (h₂.2 s rfl) hmem fun v => ?_
      exact passes_record_bind h₂.1 fun o₃ h₃ => hk v o₃ h₃ hmem
  · exact passes_anySolution h₁

/-- The linear search passes, as the objective is declared if there is one. -/
theorem passes_searchLinear (h : Fluent m (.ofModel m) names o) (hphase : o.phase = .encoded)
    (hname : m.softConstraints ≠ [] → Names.objective ∈ names) :
    Passes (searchLinear b) o fun _ _ => True := by
  refine passes_search h hphase hname fun v o₁ h₁ hmem => ?_
  refine (passes_descend h₁ hmem _).bind fun d o₂ h₂ => ?_
  cases d with
  | optimal v => exact trivial
  | interrupted v => exact trivial

/-- Each step of a bisection assumes a bound on the objective. -/
theorem passes_bisect (h : Fluent m f names o) (hname : Names.objective ∈ names) (fuel : Nat)
    (lb ub : Int) : Passes (bisect b fuel lb ub) o fun _ _ => True := by
  induction fuel generalizing o lb ub with
  | zero => exact trivial
  | succ fuel ih =>
    refine passes_checked_bind (Word.tame_sub _ _) fun width _ => ?_
    split_ifs
    · exact trivial
    refine (passes_assume h hname _ _).bind fun _ o₁ h₁ => ?_
    refine (passes_ask h₁ _).bind fun outcome o₂ h₂ => ?_
    cases outcome with
    | sat s =>
      refine passes_valueOf_bind (h₂.2 s rfl) hname fun v => ?_
      refine passes_bindValue_bind h₂.1 hname fun o₃ h₃ => ?_
      exact passes_record_bind h₃ fun o₄ h₄ => ih h₄ _ _
    | unsat => exact passes_bindValue_bind h₂.1 hname fun o₃ h₃ => ih h₃ _ _
    | interrupted => exact trivial

/-- The binary search passes, as the objective is declared if there is one. -/
theorem passes_searchBinary (h : Fluent m (.ofModel m) names o) (hphase : o.phase = .encoded)
    (hname : m.softConstraints ≠ [] → Names.objective ∈ names) :
    Passes (searchBinary b) o fun _ _ => True := by
  exact passes_search h hphase hname fun v o₁ h₁ hmem =>
    passes_get_bind (passes_bisect h₁ hmem _ _ _)

/-! ### Tiers -/

/-- **Tiers.** The soft constraints of a new price can be formulated with the sum of their
penalties. -/
theorem passes_addTier (hm : m.Formulable) {prices : List Nat} {price : Nat} {a : Names.Aux}
    (ha : m.Sums a price) (hnodup : (prices ++ [price]).Nodup) (hintro : m.Introduced names)
    (h : Fluent m (.ofTiers m prices) names o) :
    Passes (addTier a.name price) o fun ub o' => ub = m.tierBound price ∧ ∃ names',
      names ⊆ names' ∧ a.name ∈ names' ∧ Fluent m (.ofTiers m (prices ++ [price])) names' o' := by
  have hmembers : ∀ c ∈ m.ofPrice price, c ∈ m.constraints :=
    fun c hc => (Model.mem_ofPrice.1 hc).1
  refine passes_get_bind ?_
  rw [h.model, show tierMembers m price = m.ofPrice price from rfl]
  refine (passes_addConstraints h (Formulation.addConstraints_tier hm hnodup)
    (Expr.accepts_flatMap fun c hc => hm.accepts_constraintExprs hintro (hmembers c hc))).bind
    fun _ o₁ h₁ => passes_get_bind ?_
  rw [h₁.formulation]
  -- Each member has its penalty now, so the sum can fail by an overflow only.
  have hpenalty := fun c (hc : c ∈ m.ofPrice price) =>
    Formulation.penalty_ofTiers hm.toWellFormed hnodup (List.mem_flatMap.2 ⟨price, by simp, hc⟩)
  refine passes_formulating_bind (Formulation.tame_aggregate _ _ _) (fun e he => ?_) fun r hr => ?_
  · rw [Formulation.aggregate_eq hpenalty] at he
    split at he
    · cases he
    · cases he
  · rw [Formulation.aggregate_eq hpenalty] at hr
    split at hr
    · next r' hdefined =>
      cases hr
      obtain ⟨hdefinition, hbound⟩ := Formulation.sumOf_eq_ok hdefined
      have htier : Formulation.TierExprs m a.name price
          ((m.ofPrice price).flatMap Formulation.constraintExprs ++ r.1) := ⟨r.1, hdefinition, rfl⟩
      obtain ⟨haccepts, hdeclared⟩ := htier.accepts hm a ha.valid ha.greatest hintro
      refine passes_queue_bind h₁ (Expr.accepts_append.1 haccepts).2 fun o₂ h₂ _ =>
        passes_pure ⟨hbound, _, ?_, ?_, h₂⟩
      · exact fun n hn => List.mem_append_left _ (List.mem_append_left _ hn)
      · rw [List.append_assoc, ← Expr.declaredBy_append]
        exact List.mem_append_right _ hdeclared
    · cases hr

theorem passes_assumePins (h : Fluent m f names o) {pins : List (String × Int)}
    (hpins : ∀ p ∈ pins, p.1 ∈ names) :
    Passes (assumePins b pins) o fun _ o' => Fluent m f names o' := by
  induction pins generalizing o with
  | nil => exact passes_pure h
  | cons p pins ih =>
    obtain ⟨hp, hrest⟩ := List.forall_mem_cons.1 hpins
    exact (passes_assume h hp _ _).bind fun _ o₁ h₁ => ih h₁ hrest

/-- A tier is asked for with its warm start, and then without. -/
theorem passes_askTier (h : Fluent m f names o) {name : String} (hname : name ∈ names)
    {warm : Option WarmStart} (hpins : ∀ w ∈ warm, ∀ p ∈ w.pins, p.1 ∈ names) :
    Passes (askTier b name warm) o fun outcome o' => Fluent m f names o' ∧
      ∀ s, outcome = .sat s → s.Covers names := by
  cases warm with
  | none => exact passes_ask h none
  | some warm =>
    refine (passes_assumePins h (hpins warm rfl)).bind fun _ o₁ h₁ => ?_
    refine (passes_assume h₁ hname _ _).bind fun _ o₂ h₂ => ?_
    refine (passes_ask h₂ none).bind fun outcome o₃ h₃ => ?_
    cases outcome with
    | sat s => exact passes_pure h₃
    | unsat => exact passes_ask h₃.1 none
    | interrupted => exact passes_pure h₃

/-- What follows the answer for a tier: its bound, and the rest of the tiers. -/
theorem passes_afterTier (h : Fluent m f names o) {first : Bool} {price : Nat} {rest : List Nat}
    (hname : Names.tier price ∈ names) {outcome : Outcome}
    (houtcome : ∀ s, outcome = .sat s → s.Covers names)
    (hrest : ∀ o' : Optimizer σ, Fluent m f names o' →
      Passes (minimizeTiers b false none rest) o' fun _ _ => True) :
    Passes (afterTier b first price rest outcome) o fun _ _ => True := by
  cases outcome with
  | unsat =>
    show Passes (if first then enter b .infeasible else Step.fail (.stuckTier price)) o _
    split_ifs
    · exact trivial
    · exact passes_fail (.stuckTier price)
  | interrupted => exact trivial
  | sat s =>
    refine passes_valueOf_bind (houtcome s rfl) hname fun v => ?_
    refine passes_record_bind h fun o₁ h₁ => ?_
    refine (passes_descend h₁ hname _).bind fun d o₂ h₂ => ?_
    refine (passes_noteTimeout h₂ d).bind fun _ o₃ h₃ => ?_
    exact passes_bindValue_bind h₃ hname fun o₄ h₄ => hrest o₄ h₄

/-- **Tier by tier.** Every price comes up once, so its names are new. -/
theorem passes_minimizeTiers (hm : m.Formulable) {prices rest : List Nat}
    (hnodup : (prices ++ rest).Nodup) {warm : Option WarmStart} (hwarm : Pins m warm)
    (hintro : m.Introduced names) (h : Fluent m (.ofTiers m prices) names o) (first : Bool) :
    Passes (minimizeTiers b first warm rest) o fun _ _ => True := by
  induction rest generalizing o names prices warm first with
  | nil => exact passes_finishDescents
  | cons price rest ih =>
    rw [List.append_cons] at hnodup
    rw [minimizeTiers_cons]
    refine (passes_addTier hm (m.sums_tier price) (List.nodup_append.1 hnodup).1 hintro h).bind
      fun _ o₁ h₁ => ?_
    obtain ⟨-, names', hsub, hname, h₁⟩ := h₁
    have hintro' := hintro.mono hsub
    have hpins : ∀ w ∈ warm, ∀ p ∈ w.pins, p.1 ∈ names' := by
      intro w hw p hp
      obtain ⟨x, hx, heq⟩ := hwarm w hw p hp
      rw [← heq]
      exact (hintro' x hx).1
    refine (passes_askTier h₁ hname hpins).bind fun outcome o₂ h₂ => ?_
    exact passes_afterTier h₂.1 hname h₂.2 fun o₃ h₃ => ih hnodup (by simp [Pins]) hintro' h₃ false

/-- **Tiers.** Each of them is declared before it is minimized. -/
theorem passes_optimizeTiers (hm : m.Formulable) {warm : Option WarmStart} (hwarm : Pins m warm)
    (hintro : m.Introduced names) (h : Fluent m (.ofTiers m []) names o) :
    Passes (optimizeTiers b warm) o fun _ _ => True := by
  have hnodup : (([] : List Nat) ++ m.tiers.map (·.price)).Nodup := m.nodup_tiers
  refine passes_get_bind ?_
  rw [h.model]
  split
  · exact passes_anySolution h
  · exact passes_minimizeTiers hm hnodup hwarm hintro h true

/-! ### Warm starts -/

/-- Pins fail only where a label of the log is no integer. -/
theorem pinsOf_error {log : SolverLog} {xs : List Variable} {e : MethodError}
    (h : WarmStart.pinsOf log xs = .error e) : Outward (.error e) := by
  induction xs with
  | nil => cases h
  | cons x xs ih =>
    rw [WarmStart.pinsOf] at h
    split at h
    · exact ih h
    · split at h
      · cases h
        exact .label _ _ _
      · cases hrest : WarmStart.pinsOf log xs with
        | ok pins =>
          rw [hrest] at h
          cases h
        | error e' =>
          rw [hrest] at h
          cases h
          exact ih hrest

/-- A log fails only where one of its labels is no integer. -/
theorem ofLog_error {log : SolverLog} {e : MethodError}
    (h : WarmStart.ofLog m log = .error (.error e)) : Outward (.error e) := by
  unfold WarmStart.ofLog at h
  split_ifs at h
  · cases h
  · split at h
    · cases h
    · cases hsum : WarmStart.amountsOf m _ log.violated >>= Word.sum with
      | error t =>
        rw [hsum] at h
        cases h
      | ok bound =>
        rw [hsum] at h
        cases hpins : WarmStart.pinsOf log m.vars with
        | ok pins =>
          rw [hpins] at h
          cases h
        | error e' =>
          rw [hpins] at h
          cases h
          exact pinsOf_error hpins

/-- A well-formed model has an instance, so a request fails by local search only. -/
theorem warmStartRequest_error (hm : o.model.WellFormed) {e : MethodError}
    (h : warmStartRequest o = .error (.error e)) : Outward (.error e) := by
  unfold warmStartRequest instanceOf at h
  cases hwrite : Instance.Scribe.writeModel o.model .start with
  | error e' s =>
    simp only [hwrite] at h
    cases e' with
    | fault t => cases h
    | error e' => exact absurd hwrite (Instance.writeModel_error hm)
  | ok i s =>
    simp only [hwrite, bind, Except.bind] at h
    split at h
    · cases h
    · cases h
      exact .localSearch _

/-- A local search runs, or fails in its own ways. -/
theorem passes_localLog (hm : m.WellFormed) (h : Fluent m f names o) (run : LocalSearch.Runner) :
    Passes (localLog run) o fun _ o' => Fluent m f names o' := by
  refine passes_get_bind ?_
  refine passes_except_bind o.tame_warmStartRequest (fun q _ => ?_) fun e he =>
    warmStartRequest_error (h.model.symm ▸ hm) he
  refine passes_bind_of_eq (p := { o with asked := some q }) rfl ?_
  split
  · exact passes_pure ⟨h.model, h.formulation, h.ready⟩
  · exact passes_fail (.localSearch _)

/-! ### Steps -/

theorem passes_minimizeStep (h : Fluent m f names o) {name : String} (hname : name ∈ names) :
    Passes (minimizeStep b name) o fun _ o' => Fluent m f names o' := by
  refine (passes_firstSolution h).bind fun r o₁ h₁ => ?_
  cases r with
  | none => exact passes_pure h₁.1
  | some s =>
    refine passes_valueOf_bind (h₁.2 s rfl) hname fun v => ?_
    refine passes_record_bind h₁.1 fun o₂ h₂ => ?_
    refine (passes_descend h₂ hname _).bind fun d o₃ h₃ => ?_
    refine (passes_noteTimeout h₃ d).bind fun _ o₄ h₄ => ?_
    exact passes_bindValue_bind h₄ hname fun o₅ h₅ => passes_pure h₅

/-- The lighter tiers are declared one by one. -/
theorem passes_addLighterTiers (hm : m.Formulable) {prices light : List Nat}
    (hnodup : (prices ++ light).Nodup) (hintro : m.Introduced names)
    (h : Fluent m (.ofTiers m prices) names o) :
    Passes (addLighterTiers light) o fun parts o' =>
      parts = light.map (Formulation.lighterPart m) ∧ ∃ names', names ⊆ names' ∧
        (∀ w ∈ light, Names.lighterTier w ∈ names') ∧
        Fluent m (.ofTiers m (prices ++ light)) names' o' := by
  induction light generalizing o names prices with
  | nil => exact passes_pure ⟨rfl, names, List.Subset.refl _, by simp, by rwa [List.append_nil]⟩
  | cons price light ih =>
    rw [List.append_cons] at hnodup
    refine (passes_addTier hm (m.sums_lighterTier price) (List.nodup_append.1 hnodup).1 hintro
      h).bind fun ub o₁ h₁ => ?_
    obtain ⟨rfl, names₁, hsub₁, hname, h₁⟩ := h₁
    refine (ih hnodup (hintro.mono hsub₁) h₁).bind fun parts o₂ h₂ => ?_
    obtain ⟨rfl, names₂, hsub₂, hlight, h₂⟩ := h₂
    refine passes_pure ⟨rfl, names₂, List.Subset.trans hsub₁ hsub₂, ?_, ?_⟩
    · exact List.forall_mem_cons.2 ⟨hsub₂ hname, hlight⟩
    · rw [List.append_cons]
      exact h₂

/-- The second step minimizes the sum of the lighter tiers, once that is declared. -/
theorem passes_searchLighter (hm : m.Formulable) {heavy : Nat} {light : List Nat}
    (htiers : m.tiers.map (·.price) = heavy :: light) (hintro : m.Introduced names)
    (h : Fluent m (.ofTiers m [heavy]) names o) :
    Passes (searchLighter b light) o fun _ _ => True := by
  have hnodup : ([heavy] ++ light).Nodup := by
    show (heavy :: light).Nodup
    rw [← htiers]
    exact m.nodup_tiers
  have hgreatest : Formulation.greatest (light.map (Formulation.lighterPart m)) =
      m.greatest .lighter := by
    rw [Model.greatest_lighter htiers, Formulation.greatest, List.map_map]
    rfl
  refine (passes_addLighterTiers hm hnodup hintro h).bind fun parts o₁ h₁ => ?_
  obtain ⟨rfl, names₁, -, hlight, h₁⟩ := h₁
  refine passes_checked_bind (Formulation.tame_sumDefinition _ _) fun sums hsums => ?_
  have hparts : ∀ s ∈ light.map (Formulation.lighterPart m), s.name ∈ names₁ := by
    intro s hs
    obtain ⟨w, hw, rfl⟩ := List.mem_map.1 hs
    exact hlight w hw
  obtain ⟨haccepts, hdeclared⟩ :=
    Model.Formulable.accepts_sumDefinition .lighter trivial hsums hgreatest hparts
  refine passes_queue_bind h₁ haccepts fun o₂ h₂ _ => ?_
  exact (passes_minimizeStep h₂ (List.mem_append_right _ hdeclared)).mono fun _ _ _ => trivial

/-- **Two steps.** The heaviest tier first, then the others. -/
theorem passes_searchTwoStep (hm : m.Formulable) (hintro : m.Introduced names)
    (h : Fluent m (.ofTiers m []) names o) (hphase : o.phase = .encoded) (secondStep : Bool) :
    Passes (searchTwoStep b secondStep) o fun _ _ => True := by
  refine passes_beginSearch_bind h hphase fun o₁ h₁ => passes_get_bind ?_
  rw [h₁.model]
  cases htiers : m.tiers.map (·.price) with
  | nil => exact passes_anySolution h₁
  | cons heavy light =>
    refine (passes_addTier hm (Model.sums_heaviest htiers) (List.nodup_singleton heavy) hintro
      h₁).bind fun ub o₂ h₂ => ?_
    obtain ⟨-, names', hsub, hname, h₂⟩ := h₂
    refine (passes_minimizeStep h₂ hname).bind fun more o₃ h₃ => ?_
    cases more with
    | false => exact passes_pure trivial
    | true =>
      cases secondStep with
      | false => exact passes_finishDescents
      | true =>
        refine (passes_searchLighter hm htiers (hintro.mono hsub) h₃).bind fun more o₄ _ => ?_
        cases more with
        | false => exact passes_pure trivial
        | true => exact passes_finishDescents

end Optimizer

namespace Strategy

open Optimizer

variable {σ : Type} {b : Backend σ} {m : Model} {o : Optimizer σ}

/-! ### Strategies -/

/-- All steps of a strategy that formulates the whole model. -/
theorem passes_all (hm : m.Formulable) (h : Fluent m .empty [] o) (hphase : o.phase = .start)
    {search : Action σ Unit} {name : String}
    (hsearch : ∀ names o', Fluent m (.ofModel m) names o' → o'.phase = .encoded →
      (m.softConstraints ≠ [] → Names.objective ∈ names) →
      Passes search o' fun _ _ => True) :
    Passes (do
      formulateAll b
      encode b
      search
      ((← get).report b name : Checked Report)) o fun _ _ => True := by
  refine (passes_formulateAll hm h hphase).bind fun _ o₁ h₁ => ?_
  obtain ⟨names, h₁, hname, hphase₁⟩ := h₁
  refine (passes_encode h₁ hphase₁).bind fun _ o₂ h₂ => ?_
  refine (hsearch names o₂ h₂.1 h₂.2 hname).bind fun _ o₃ _ => passes_get_bind ?_
  exact passes_checked (tame_report b name o₃) fun _ _ => trivial

/-- All steps of a strategy that formulates the hard constraints first. -/
theorem passes_hard (hm : m.Formulable) (h : Fluent m .empty [] o) (hphase : o.phase = .start)
    {search : Action σ Unit} {name : String}
    (hsearch : ∀ names o', m.Introduced names → Fluent m (.ofTiers m []) names o' →
      o'.phase = .encoded → Passes search o' fun _ _ => True) :
    Passes (do
      formulateHard b
      encode b
      search
      ((← get).report b name : Checked Report)) o fun _ _ => True := by
  refine (passes_formulateHard hm h hphase).bind fun _ o₁ h₁ => ?_
  obtain ⟨⟨names, hintro, h₁⟩, hphase₁⟩ := h₁
  refine (passes_encode h₁ hphase₁).bind fun _ o₂ h₂ => ?_
  refine (hsearch names o₂ hintro h₂.1 h₂.2).bind fun _ o₃ _ => passes_get_bind ?_
  exact passes_checked (tame_report b name o₃) fun _ _ => trivial

/-- A whole run over the tiers passes. -/
theorem passes_completeTiers (hm : m.Formulable) (h : Fluent m .empty [] o)
    (hphase : o.phase = .start) {warm : Option WarmStart} (hwarm : Pins m warm) (name : String) :
    Passes (completeTiers b warm name) o fun _ _ => True := by
  have hall : Passes (do
      formulateHard b
      encode b
      beginSearch b >>= fun _ => optimizeTiers b warm
      ((← get).report b name : Checked Report)) o fun _ _ => True :=
    passes_hard hm h hphase fun names o₁ hintro h₁ hphase₁ =>
      passes_beginSearch_bind h₁ hphase₁ fun o₂ h₂ => passes_optimizeTiers hm hwarm hintro h₂
  simpa only [completeTiers, bind_assoc] using hall

/-- A whole run of any strategy passes. -/
theorem passes_complete (hm : m.Formulable) (h : Fluent m .empty [] o) (hphase : o.phase = .start)
    (run : LocalSearch.Runner) (strategy : Strategy) :
    Passes (complete b run strategy) o fun _ _ => True := by
  cases strategy with
  | linear =>
    exact passes_all hm h hphase fun _ _ h' hphase' hname => passes_searchLinear h' hphase' hname
  | binary =>
    exact passes_all hm h hphase fun _ _ h' hphase' hname => passes_searchBinary h' hphase' hname
  | firstStep =>
    exact passes_hard hm h hphase fun _ _ hintro h' hphase' =>
      passes_searchTwoStep hm hintro h' hphase' false
  | twoStep =>
    exact passes_hard hm h hphase fun _ _ hintro h' hphase' =>
      passes_searchTwoStep hm hintro h' hphase' true
  | incremental =>
    rw [complete_incremental]
    exact passes_completeTiers hm h hphase (by simp [Pins]) _
  | hybrid =>
    refine passes_hard hm h hphase fun names o₁ hintro h₁ hphase₁ => ?_
    refine passes_beginSearch_bind h₁ hphase₁ fun o₂ h₂ => ?_
    refine (passes_localLog hm.toWellFormed h₂ run).bind fun log o₃ h₃ => passes_get_bind ?_
    rw [h₃.model]
    refine passes_except_bind (tame_ofLog hm.toIndexed log) (fun warm hwarm => ?_)
      fun e he => ofLog_error he
    exact passes_optimizeTiers hm (pins_ofLog hwarm) hintro h₃

/-- **What a strategy says compiles.** Whatever the backend and the local search do, and however
long they keep a loop going, a run on a supported model without reserved names fails only from
outside; and so does a search tier by tier that starts from any log. -/
theorem complete_compiles {s₀ : σ} (hm : m.Built)
    (hnames : ∀ x ∈ m.vars, Names.isReserved x.name = false) {options : MethodOptions}
    (hnew : Optimizer.new b s₀ m options = .ok o) (turns : Nat) :
    (∀ run strategy e o', complete b run strategy { o with spareTurns := turns } = .error e o' →
      Outward e) ∧
    ∀ log warm name e o', WarmStart.ofLog m log = .ok warm →
      completeTiers b warm name { o with spareTurns := turns } = .error e o' → Outward e := by
  obtain ⟨⟨hmodel, hformulation, hready⟩, hphase, hsupported⟩ := fluent_new hnew
  have hform := Model.formulable_of_built hm hnames hsupported
  -- Nothing is said of the turns, so their number does not matter.
  have hfluent : Fluent m .empty [] { o with spareTurns := turns } :=
    ⟨hmodel, hformulation, hready⟩
  refine ⟨fun run strategy e o' h => ?_, fun log warm name e o' hlog h => ?_⟩
  · have hpasses := passes_complete (b := b) hform hfluent hphase run strategy
    unfold Passes at hpasses
    rwa [h] at hpasses
  · have hpasses := passes_completeTiers (b := b) hform hfluent hphase (pins_ofLog hlog) name
    unfold Passes at hpasses
    rwa [h] at hpasses

/-- The backend that answers no question. -/
def mute : Backend Unit where
  add _ _ := (.ok (), ())
  solve _ _ _ := (.error "gone", ())
  elapsed _ := 0

/-- The optimizer for a small model with two prices, on a backend that answers no question. -/
def muteStart : Optimizer Unit := startOn () Model.Sample.torn

/-- The failure of a run, unless it ends with a report. -/
def failure? :
    EStateM.Result (Failure MethodError) (Optimizer σ) Report → Option (Failure MethodError)
  | .ok _ _ => none
  | .error e _ => some e

theorem exists_eq_error {x : EStateM.Result (Failure MethodError) (Optimizer σ) Report}
    {e : Failure MethodError} (h : failure? x = some e) : ∃ o', x = .error e o' := by
  cases x with
  | ok r o' => cases h
  | error e' o' =>
    cases h
    exact ⟨o', rfl⟩

/-- Without a log the local search is to blame; from a log, the pins are assumed and then the
backend is to blame. -/
theorem complete_compiles_mute : ∃ o₁ o₂,
    complete mute (fun _ => .killed) .hybrid muteStart =
      .error (.error (.localSearch .killed)) o₁ ∧
    Outward (.error (.localSearch .killed)) ∧
    WarmStart.ofLog Model.Sample.torn ⟨0, 1, 0, 0, 0, 1, [("y", "1")], []⟩ =
      .ok (some ⟨[("y", 1)], 0⟩) ∧
    completeTiers mute (some ⟨[("y", 1)], 0⟩) hybrid.name muteStart =
      .error (.error (.session (.backend "gone"))) o₂ ∧
    Outward (.error (.session (.backend "gone"))) := by
  have hkilled : failure? (complete mute (fun _ => .killed) .hybrid muteStart) =
      some (.error (.localSearch .killed)) := by cbv
  have hgone : failure? (completeTiers mute (some ⟨[("y", 1)], 0⟩) hybrid.name muteStart) =
      some (.error (.session (.backend "gone"))) := by cbv
  have hlog : WarmStart.ofLog Model.Sample.torn ⟨0, 1, 0, 0, 0, 1, [("y", "1")], []⟩ =
      .ok (some ⟨[("y", 1)], 0⟩) := by cbv
  obtain ⟨o₁, h₁⟩ := exists_eq_error hkilled
  obtain ⟨o₂, h₂⟩ := exists_eq_error hgone
  have hcompiles := complete_compiles Model.Sample.built_torn (by decide)
    (show Optimizer.new mute () Model.Sample.torn {} = .ok muteStart from rfl) 0
  exact ⟨o₁, o₂, h₁, hcompiles.1 _ _ _ _ h₁, hlog, h₂, hcompiles.2 _ _ _ _ _ hlog h₂⟩

end Strategy

end WeightedCsp

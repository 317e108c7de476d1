import Mathlib.Logic.Relation
import WeightedCsp.Method.Strategy
import WeightedCsp.Proofs.Formulation.Clashes
import WeightedCsp.Proofs.Method.Runs

/-!
# What a method can do

A method changes its optimizer in few ways (`Move`): it says something of the model, it assumes a
bound, it asks a question, it keeps a solution that it was given, and it goes on to another phase.
Every step of every strategy is a path of such moves, also a step that fails (`Walks`); faults are
left out, since nothing goes on from them.  What all moves keep is kept by every step.

An encoding that fails is no move: it takes back what was said, and nothing but the phase tells.
Neither is it a move when the backend refuses a clause (`Refused`): what was said is in the tables
then, but not in the backend.  The search stops there, and it can neither go on nor begin again.
-/

namespace WeightedCsp

namespace Optimizer

variable {σ α β : Type}

/-- The search may be on: what was said of the variables and hard constraints was encoded. -/
def PastEncoding (o : Optimizer σ) : Prop := o.phase ≠ .start ∧ o.phase ≠ .formulated

/-- The solution was the answer to a question. -/
def Received (o : Optimizer σ) (s : Solution) : Prop := ∃ q ∈ o.questions, q.outcome = .sat s

/-- What an optimizer stands for; the rest is bookkeeping. -/
structure SameFacts (o o' : Optimizer σ) : Prop where
  model : o'.model = o.model
  session : o'.session = o.session
  phase : o'.phase = o.phase
  questions : o'.questions = o.questions
  best : o'.best = o.best

/-- One thing that a method can do. -/
inductive Move (b : Backend σ) : Optimizer σ → Optimizer σ → Prop
  /-- Something is noted that nothing else depends on. -/
  | note {o o' : Optimizer σ} (h : SameFacts o o') : Move b o o'
  /-- Something is said of the model. -/
  | queue {o : Optimizer σ} {es : List Expr} (h : o.model.ExplainsAll es) :
    Move b o { o with session := o.session.addExprs es }
  /-- The variables and hard constraints were spoken of. -/
  | formulated {o : Optimizer σ} {took : Option Nat} (hphase : o.phase = .start)
    (h : Formulation.sayings o.model o.model.hardConstraints ⊆ o.session.pending) :
    Move b o { o with phase := .formulated, took := took }
  /-- What was said is encoded. -/
  | encode {o : Optimizer σ} {s : Session σ} {took : Option Nat} (hphase : o.phase = .formulated)
    (h : Session.commit b o.session = .ok () s) :
    Move b o { o with session := s, phase := .encoded, took := took }
  /-- Something is assumed. -/
  | assume {o : Optimizer σ} {s : Session σ} {name : String} {op : Comparator} {bound : Int}
    (hpast : o.PastEncoding) (h : Session.assume b name op bound o.session = .ok () s) :
    Move b o { o with session := s }
  /-- Something cannot be assumed. -/
  | assumeFails {o : Optimizer σ} {s : Session σ} {name : String} {op : Comparator} {bound : Int}
    {e : SessionError} (hpast : o.PastEncoding) (he : ∀ message, e ≠ .refused message)
    (h : Session.assume b name op bound o.session = .error (.error e) s) :
    Move b o { o with session := s }
  /-- A question is answered. -/
  | ask {o : Optimizer σ} {s : Session σ} {limit : Option Nat} {bound : Option Int}
    {outcome : Outcome} {solves : Nat} (hpast : o.PastEncoding)
    (h : Session.solve b limit o.session = .ok outcome s) :
    Move b o { o with
      session := s, solves := solves, questions := o.questions ++ [⟨bound, outcome⟩] }
  /-- A question fails. -/
  | askFails {o : Optimizer σ} {s : Session σ} {limit : Option Nat} {solves : Nat}
    {e : SessionError} (hpast : o.PastEncoding) (he : ∀ message, e ≠ .refused message)
    (h : Session.solve b limit o.session = .error (.error e) s) :
    Move b o { o with session := s, solves := solves }
  /-- There is no time for a question. -/
  | skip {o : Optimizer σ} {bound : Option Int} :
    Move b o { o with questions := o.questions ++ [⟨bound, .interrupted⟩] }
  /-- An answer is kept as the best one. -/
  | record {o : Optimizer σ} {s : Solution} (h : o.Received s) : Move b o { o with best := some s }
  /-- The search goes on, or comes to its end; what is optimal was found. -/
  | enter {o : Optimizer σ} {phase : Phase} {took : Option Nat} (hpast : o.PastEncoding)
    (hphase : phase ≠ .start ∧ phase ≠ .formulated) (h : phase = .optimal → o.best ≠ none) :
    Move b o { o with phase := phase, took := took }

/-- Moves one after the other. -/
abbrev Path (b : Backend σ) : Optimizer σ → Optimizer σ → Prop := Relation.ReflTransGen (Move b)

section Path

variable {b : Backend σ} {o o' : Optimizer σ}

/-- Encoding is not taken back. -/
theorem Move.pastEncoding (h : Move b o o') (hpast : o.PastEncoding) : o'.PastEncoding := by
  cases h with
  | note h =>
    unfold PastEncoding
    rw [h.phase]
    exact hpast
  | formulated hphase _ => exact absurd hphase hpast.1
  | encode hphase _ => exact absurd hphase hpast.2
  | enter _ hphase _ => exact hphase
  | queue _ | assume _ _ | assumeFails _ _ _ | ask _ _ | askFails _ _ _ | skip | record _ =>
    exact hpast

theorem Path.pastEncoding (h : Path b o o') (hpast : o.PastEncoding) : o'.PastEncoding := by
  induction h with
  | refl => exact hpast
  | tail _ hmove ih => exact hmove.pastEncoding ih

/-- Neither variables nor questions are taken back, and the model stays. -/
theorem Move.later (h : Move b o o') : Later o o' := by
  cases h with
  | note h =>
    refine ⟨?_, ?_, h.model⟩
    · rw [h.session]
    · rw [h.questions]
  | encode _ h => exact ⟨(Session.nextLe_commit b).ok h, List.prefix_refl _, rfl⟩
  | assume _ h => exact ⟨(Session.nextLe_assume b _ _ _).ok h, List.prefix_refl _, rfl⟩
  | assumeFails _ _ h => exact ⟨(Session.nextLe_assume b _ _ _).error h, List.prefix_refl _, rfl⟩
  | ask _ h => exact ⟨(Session.nextLe_solve b _).ok h, List.prefix_append _ _, rfl⟩
  | askFails _ _ h => exact ⟨(Session.nextLe_solve b _).error h, List.prefix_refl _, rfl⟩
  | skip => exact ⟨Nat.le_refl _, List.prefix_append _ _, rfl⟩
  | queue _ | formulated _ _ | record _ | enter _ _ _ =>
    exact ⟨Nat.le_refl _, List.prefix_refl _, rfl⟩

theorem Path.later (h : Path b o o') : Later o o' := by
  induction h with
  | refl => exact .refl o
  | tail _ hmove ih => exact ih.trans hmove.later

/-- A solution that was found is kept, or replaced by another. -/
theorem Move.found (h : Move b o o') (hfound : o.best ≠ none) : o'.best ≠ none := by
  cases h with
  | note h =>
    rw [h.best]
    exact hfound
  | record _ => exact Option.some_ne_none _
  | formulated _ _ | encode _ _ | enter _ _ _ | queue _ | assume _ _ | assumeFails _ _ _ | ask _ _
  | askFails _ _ _ | skip => exact hfound

theorem Path.found (h : Path b o o') (hfound : o.best ≠ none) : o'.best ≠ none := by
  induction h with
  | refl => exact hfound
  | tail _ hmove ih => exact hmove.found ih

end Path

/-! ### Refused clauses -/

/-- A search is on. -/
def Searching (o : Optimizer σ) : Prop := o.phase = .searching

/-- A search comes after encoding. -/
theorem Searching.pastEncoding {o : Optimizer σ} (h : o.Searching) : o.PastEncoding := by
  unfold Searching at h
  simp [PastEncoding, h]

/-- A clause that the backend refuses, in a search. -/
inductive Refused (b : Backend σ) : Optimizer σ → Optimizer σ → Prop
  /-- A clause of the batch before an assumption is refused. -/
  | assume {o : Optimizer σ} {s : Session σ} {name : String} {op : Comparator} {bound : Int}
    {message : String} (hsearch : o.Searching)
    (h : Session.assume b name op bound o.session = .error (.error (.refused message)) s) :
    Refused b o { o with session := s }
  /-- A clause of the batch before a question is refused. -/
  | ask {o : Optimizer σ} {s : Session σ} {limit : Option Nat} {solves : Nat} {message : String}
    (hsearch : o.Searching)
    (h : Session.solve b limit o.session = .error (.error (.refused message)) s) :
    Refused b o { o with session := s, solves := solves }

/-- A refused clause does not end the search. -/
theorem Refused.searching {b : Backend σ} {o o' : Optimizer σ} (h : Refused b o o') :
    o'.Searching := by
  cases h with
  | assume hsearch _ => exact hsearch
  | ask hsearch _ => exact hsearch

/-- A failure at the end of a path, or at a clause that is refused after it. -/
def Stops (b : Backend σ) (o o' : Optimizer σ) : Prop :=
  Path b o o' ∨ ∃ o₁, Path b o o₁ ∧ Refused b o₁ o'

/-- A path leads to where the failure begins. -/
theorem Stops.after {b : Backend σ} {o o₁ o' : Optimizer σ} (h : Stops b o₁ o')
    (hpath : Path b o o₁) : Stops b o o' := by
  rcases h with hend | ⟨o₂, hend, hrefused⟩
  · exact .inl (hpath.trans hend)
  · exact .inr ⟨o₂, hpath.trans hend, hrefused⟩

/-! ### Steps are paths -/

/-- The step goes along a path, and if it succeeds, its result and state satisfy `post`. -/
def Walks (b : Backend σ) (x : Action σ α) (o : Optimizer σ)
    (post : α → Optimizer σ → Prop) : Prop :=
  match x o with
  | .ok a o' => Path b o o' ∧ post a o'
  | .error (.error _) o' => Stops b o o'
  | .error (.fault _) _ => True

section Rules

variable {b : Backend σ} {x : Action σ α} {f : α → Action σ β} {o o' : Optimizer σ}
  {post post' : α → Optimizer σ → Prop} {last : β → Optimizer σ → Prop}

theorem Walks.of_eq_ok (h : Walks b x o post) {a : α} (hx : x o = .ok a o') :
    Path b o o' ∧ post a o' := by
  unfold Walks at h
  rwa [hx] at h

theorem Walks.of_eq_error (h : Walks b x o post) {e : MethodError}
    (hx : x o = .error (.error e) o') : Stops b o o' := by
  unfold Walks at h
  rwa [hx] at h

theorem Walks.mono (h : Walks b x o post) (himp : ∀ a o', Path b o o' → post a o' → post' a o') :
    Walks b x o post' := by
  unfold Walks at h ⊢
  split at h
  · exact ⟨h.1, himp _ _ h.1 h.2⟩
  · exact h
  · trivial

/-- **Sequencing.** -/
theorem Walks.bind (hx : Walks b x o post)
    (hf : ∀ a o', Path b o o' → post a o' → Walks b (f a) o' last) :
    Walks b (x >>= f) o last := by
  show Walks b (EStateM.bind x f) o last
  unfold Walks EStateM.bind at *
  cases hx' : x o with
  | error e o₁ =>
    rw [hx'] at hx
    cases e with
    | fault _ => trivial
    | error e => exact hx
  | ok a o₁ =>
    rw [hx'] at hx
    have hrest := hf a o₁ hx.1 hx.2
    cases hf' : f a o₁ with
    | ok c o₂ =>
      simp only [hf'] at hrest ⊢
      exact ⟨hx.1.trans hrest.1, hrest.2⟩
    | error e o₂ =>
      simp only [hf'] at hrest ⊢
      cases e with
      | fault _ => trivial
      | error e => exact hrest.after hx.1

theorem walks_pure {a : α} (h : post a o) : Walks b (pure a) o post := ⟨.refl, h⟩

theorem walks_get_bind {f : Optimizer σ → Action σ β} (h : Walks b (f o) o last) :
    Walks b (get >>= f) o last := h

theorem walks_fail {e : MethodError} : Walks b (Step.fail e) o post := .inl .refl

theorem walks_checked_bind {c : Checked α} (h : ∀ a, c = .ok a → Walks b (f a) o last) :
    Walks b (liftM c >>= f) o last := by
  cases c with
  | ok a => exact h a rfl
  | error t => trivial

theorem walks_except_bind {r : Except (Failure MethodError) α}
    (h : ∀ a, r = .ok a → Walks b (f a) o last) : Walks b (liftM r >>= f) o last := by
  cases r with
  | ok a => exact h a rfl
  | error e =>
    cases e with
    | fault _ => trivial
    | error _ => exact .inl .refl

/-- Sequencing after a step whose end is known. -/
theorem walks_bind_of_eq {a : α} (hx : x o = .ok a o') (hpath : Path b o o')
    (h : Walks b (f a) o' last) : Walks b (x >>= f) o last := by
  have hwalks : Walks b x o fun a' o₁ => a' = a ∧ o₁ = o' := by
    unfold Walks
    rw [hx]
    exact ⟨hpath, rfl, rfl⟩
  refine hwalks.bind ?_
  rintro _ _ - ⟨rfl, rfl⟩
  exact h

theorem walks_modify_bind {g : Optimizer σ → Optimizer σ} {f : Unit → Action σ β}
    (hmove : Move b o (g o)) (h : Walks b (f ()) (g o) last) : Walks b (modify g >>= f) o last :=
  walks_bind_of_eq rfl (.single hmove) h

end Rules

/-! ### Steps that all strategies share -/

section Shared

variable {b : Backend σ} {o : Optimizer σ}

/-- A step that expects a phase fails where it stands, in any other phase. -/
theorem walks_expect_bind {phase : Phase} {f : Unit → Action σ β} {post : β → Optimizer σ → Prop}
    (h : o.phase = phase → Walks b (f ()) o post) : Walks b (expect phase >>= f) o post := by
  have hexpect : Walks b (expect phase) o fun _ o' => o' = o ∧ o.phase = phase := by
    unfold Walks expect
    split_ifs with hphase
    · exact ⟨.refl, rfl, hphase⟩
    · exact .inl .refl
  refine hexpect.bind fun _ o' _ heq => ?_
  rw [heq.1]
  exact h heq.2

/-- What is queued explains itself by the model. -/
theorem walks_queue_bind {es : List Expr} {f : Unit → Action σ β} {post : β → Optimizer σ → Prop}
    (hes : o.model.ExplainsAll es)
    (h : Walks b (f ()) { o with session := o.session.addExprs es } post) :
    Walks b (queue es >>= f) o post := walks_bind_of_eq rfl (.single (.queue hes)) h

theorem walks_formulating_bind {α : Type} {r : Except (Failure FormulationError) α}
    {f : α → Action σ β} {post : β → Optimizer σ → Prop}
    (h : ∀ a, r = .ok a → Walks b (f a) o post) :
    Walks b (liftM (formulating r) >>= f) o post := by
  refine walks_except_bind fun a ha => h a ?_
  cases r with
  | ok a' =>
    cases ha
    rfl
  | error e => cases ha

/-- The model is formulated once its hard constraints are queued. -/
theorem walks_enter_formulated (hphase : o.phase = .start)
    (h : Formulation.sayings o.model o.model.hardConstraints ⊆ o.session.pending) :
    Walks b (enter b .formulated) o fun _ _ => True :=
  ⟨.single (.formulated hphase h), trivial⟩

/-- After encoding, other phases are entered freely, and the last one with a solution. -/
theorem walks_enter (hpast : o.PastEncoding) {phase : Phase}
    (hphase : phase ≠ .start ∧ phase ≠ .formulated) (h : phase = .optimal → o.best ≠ none) :
    Walks b (enter b phase) o fun _ _ => True := ⟨.single (.enter hpast hphase h), trivial⟩

/-- What is said of variables is queued. -/
theorem walks_addVariables {xs : List Variable} (hxs : ∀ x ∈ xs, x ∈ o.model.vars) :
    Walks b (addVariables xs) o fun _ o' => o'.phase = o.phase ∧
      o'.session.pending = o.session.pending ++ xs.flatMap Formulation.variableExprs := by
  induction xs generalizing o with
  | nil => exact walks_pure ⟨rfl, by simp⟩
  | cons x xs ih =>
    obtain ⟨hx, hrest⟩ := List.forall_mem_cons.1 hxs
    refine walks_get_bind ?_
    cases hadd : o.formulation.addVariable x with
    | error e => exact walks_fail
    | ok r =>
      obtain ⟨exprs, f⟩ := r
      -- A variable that is accepted says the same in every formulation.
      obtain rfl : exprs = Formulation.variableExprs x := by
        unfold Formulation.addVariable at hadd
        split at hadd
        · split_ifs at hadd
          cases hadd
          rfl
        · cases hadd
          rfl
      refine walks_modify_bind (.note ⟨rfl, rfl, rfl, rfl, rfl⟩) ?_
      refine walks_queue_bind (Model.explainsAll_variableExprs hx) ?_
      refine Walks.mono (ih ?_) fun _ o' _ h => ⟨h.1, ?_⟩
      · exact hrest
      · rw [h.2, List.flatMap_cons, ← List.append_assoc]
        rfl

/-- What is said of constraints is queued. -/
theorem walks_addConstraints {cs : List Constraint} (hcs : ∀ c ∈ cs, c ∈ o.model.constraints) :
    Walks b (addConstraints cs) o fun _ o' => o'.phase = o.phase ∧
      o'.session.pending = o.session.pending ++ cs.flatMap Formulation.constraintExprs := by
  induction cs generalizing o with
  | nil => exact walks_pure ⟨rfl, by simp⟩
  | cons c cs ih =>
    obtain ⟨hc, hrest⟩ := List.forall_mem_cons.1 hcs
    refine walks_get_bind ?_
    cases hadd : o.formulation.addConstraint c with
    | error e => exact walks_fail
    | ok r =>
      obtain ⟨exprs, f⟩ := r
      obtain rfl : exprs = Formulation.constraintExprs c := by
        unfold Formulation.addConstraint at hadd
        split at hadd
        · split_ifs at hadd
          cases hadd
          rfl
        · split at hadd
          · cases hadd
          · split_ifs at hadd
            cases hadd
            rfl
      refine walks_modify_bind (.note ⟨rfl, rfl, rfl, rfl, rfl⟩) ?_
      refine walks_queue_bind (Model.explainsAll_constraintExprs hc) ?_
      refine Walks.mono (ih ?_) fun _ o' _ h => ⟨h.1, ?_⟩
      · exact hrest
      · rw [h.2, List.flatMap_cons, ← List.append_assoc]
        rfl

theorem walks_addTier {p : Names.Purpose} (hp : o.model.Needs p) (price : Nat) :
    Walks b (addTier p.name price) o fun _ o' => o'.phase = o.phase := by
  have hmembers : ∀ c ∈ tierMembers o.model price, c ∈ o.model.constraints :=
    fun c hc => (List.mem_filter.1 hc).1
  refine walks_get_bind ((walks_addConstraints hmembers).bind fun _ o₁ hpath h₁ => ?_)
  refine walks_get_bind ?_
  refine walks_formulating_bind fun r hr => ?_
  obtain ⟨exprs, ub⟩ := r
  refine walks_queue_bind ?_ (walks_pure h₁.1)
  rw [hpath.later.model]
  exact Model.explainsAll_aggregate hp hr

/-- Formulating hard constraints queues what they say. -/
theorem walks_formulateHard : Walks b (formulateHard b) o fun _ _ => True := by
  refine walks_expect_bind fun hphase => walks_get_bind ?_
  refine (walks_addVariables fun _ hx => hx).bind fun _ o₁ hpath₁ h₁ => walks_get_bind ?_
  have hhard : ∀ c ∈ o₁.model.hardConstraints, c ∈ o₁.model.constraints :=
    fun c hc => (Model.mem_hardConstraints.1 hc).1
  refine (walks_addConstraints hhard).bind fun _ o₂ hpath₂ h₂ => ?_
  refine walks_enter_formulated (h₂.1.trans (h₁.1.trans hphase)) ?_
  rw [h₂.2, h₁.2, hpath₂.later.model, hpath₁.later.model, Formulation.sayings, List.append_assoc]
  exact List.subset_append_right _ _

theorem walks_formulateAll : Walks b (formulateAll b) o fun _ _ => True := by
  refine walks_expect_bind fun hphase => walks_get_bind ?_
  refine (walks_addVariables fun _ hx => hx).bind fun _ o₁ hpath₁ h₁ => walks_get_bind ?_
  refine (walks_addConstraints fun _ hc => hc).bind fun _ o₂ hpath₂ h₂ => walks_get_bind ?_
  have hphase₂ : o₂.phase = .start := h₂.1.trans (h₁.1.trans hphase)
  -- All constraints were spoken of, the hard ones among them.
  have hsaid : Formulation.sayings o₂.model o₂.model.hardConstraints ⊆ o₂.session.pending := by
    rw [h₂.2, h₁.2, hpath₂.later.model, hpath₁.later.model, Formulation.sayings, List.append_assoc]
    refine List.Subset.trans ?_ (List.subset_append_right _ _)
    refine List.append_subset.2 ⟨List.subset_append_left _ _, ?_⟩
    refine List.Subset.trans (fun e he => ?_) (List.subset_append_right _ _)
    obtain ⟨c, hc, he⟩ := List.mem_flatMap.1 he
    exact List.mem_flatMap.2 ⟨c, (Model.mem_hardConstraints.1 hc).1, he⟩
  dsimp only
  split_ifs
  · refine walks_formulating_bind fun exprs hexprs => ?_
    refine walks_queue_bind (Model.explainsAll_objective hexprs) ?_
    exact walks_enter_formulated hphase₂ (List.Subset.trans hsaid (List.subset_append_left _ _))
  · exact walks_enter_formulated hphase₂ hsaid

/-! ### Searching -/

/-- An assumption compiles what is queued before it. -/
theorem walks_assume (hsearch : o.Searching) (name : String) (op : Comparator) (bound : Int) :
    Walks b (assume b name op bound) o fun _ o' => o'.Searching := by
  unfold Walks Optimizer.assume inSession
  cases h : Session.assume b name op bound o.session with
  | ok u s => exact ⟨.single (.assume hsearch.pastEncoding h), hsearch⟩
  | error e s =>
    cases e with
    | fault _ => trivial
    | error e =>
      by_cases he : ∃ message, e = .refused message
      · obtain ⟨message, rfl⟩ := he
        exact .inr ⟨o, .refl, .assume hsearch h⟩
      · have he' : ∀ message, e ≠ .refused message := fun message heq => he ⟨message, heq⟩
        exact .inl (.single (.assumeFails hsearch.pastEncoding he' h))

/-- Either there is no time for a question, or it is put to the session. -/
theorem pose_cases (b : Backend σ) (o : Optimizer σ) : pose b o = .ok .interrupted o ∨
    ∃ limit, pose b o = inSession (Session.solve b limit) { o with solves := o.solves + 1 } := by
  unfold pose
  rw [Step.get_bind_apply]
  rcases o.callLimit b with _ | _ | limit
  · exact .inr ⟨none, rfl⟩
  · exact .inl rfl
  · exact .inr ⟨some (limit + 1), rfl⟩

/-- A question that is answered is noted. -/
theorem walks_ask (hsearch : o.Searching) (bound : Option Int) :
    Walks b (ask b bound) o fun outcome o' =>
      o'.Searching ∧ ∀ s, outcome = .sat s → o'.Received s := by
  show Walks b (EStateM.bind (pose b) _) o _
  unfold Walks EStateM.bind
  rcases pose_cases b o with hpose | ⟨limit, hpose⟩
  · simp only [hpose]
    exact ⟨.single .skip, hsearch, by simp⟩
  · simp only [hpose, inSession]
    cases h : Session.solve b limit o.session with
    | ok outcome s =>
      refine ⟨.single (.ask hsearch.pastEncoding h), hsearch, fun t ht => ?_⟩
      exact ⟨⟨bound, outcome⟩, List.mem_append_right _ (List.mem_singleton.2 rfl), ht⟩
    | error e s =>
      cases e with
      | fault _ => trivial
      | error e =>
        by_cases he : ∃ message, e = .refused message
        · obtain ⟨message, rfl⟩ := he
          exact .inr ⟨o, .refl, .ask hsearch h⟩
        · have he' : ∀ message, e ≠ .refused message := fun message heq => he ⟨message, heq⟩
          exact .inl (.single (.askFails hsearch.pastEncoding he' h))

/-- A first solution is an answer that was received. -/
theorem walks_firstSolution (hsearch : o.Searching) :
    Walks b (firstSolution b) o fun r o' => ∀ s, r = some s → o'.Searching ∧ o'.Received s := by
  refine (walks_ask hsearch none).bind fun outcome o₁ _ h₁ => ?_
  have hpast₁ := h₁.1.pastEncoding
  cases outcome with
  | sat s =>
    refine walks_pure fun t ht => ?_
    cases ht
    exact ⟨h₁.1, h₁.2 s rfl⟩
  | unsat =>
    refine (walks_enter hpast₁ (by decide) (by simp)).bind fun _ o₂ _ _ => ?_
    exact walks_pure (by simp)
  | interrupted =>
    refine (walks_enter hpast₁ (by decide) (by simp)).bind fun _ o₂ _ _ => ?_
    exact walks_pure (by simp)

theorem walks_valueOf_bind {s : Solution} {name : String} {f : Int → Action σ β}
    {post : β → Optimizer σ → Prop} (h : ∀ v, Walks b (f v) o post) :
    Walks b (valueOf s name >>= f) o post := by
  unfold valueOf
  cases s.get? name with
  | some v => exact h v
  | none => exact .inl .refl

theorem walks_record_bind {s : Solution} (hs : o.Received s) {f : Unit → Action σ β}
    {post : β → Optimizer σ → Prop} (h : Walks b (f ()) { o with best := some s } post) :
    Walks b (record s >>= f) o post := walks_modify_bind (.record hs) h

theorem walks_bindValue_bind {name : String} {op : Comparator} {value : Int}
    {f : Unit → Action σ β} {post : β → Optimizer σ → Prop}
    (h : Walks b (f ()) { o with session := o.session.addExprs [Expr.cmp name op value] } post) :
    Walks b (bindValue name op value >>= f) o post :=
  walks_queue_bind (Model.explainsAll_cmp name op value) h

/-- A descent asks and records in turn. -/
theorem walks_descendFrom (hsearch : o.Searching) (name : String) (fuel : Nat) (best : Int) :
    Walks b (descendFrom b name fuel best) o fun _ o' => o'.Searching := by
  induction fuel generalizing o best with
  | zero => exact walks_pure hsearch
  | succ fuel ih =>
    unfold descendFrom
    split_ifs
    · exact walks_pure hsearch
    · refine (walks_assume hsearch name .le (best - 1)).bind fun _ o₁ _ h₁ => ?_
      refine (walks_ask h₁ (some (best - 1))).bind fun outcome o₂ _ h₂ => ?_
      cases outcome with
      | sat s =>
        refine walks_valueOf_bind fun v => walks_bindValue_bind ?_
        refine walks_record_bind ?_ (ih ?_ v)
        · exact h₂.2 s rfl
        · exact h₂.1
      | unsat => exact walks_pure h₂.1
      | interrupted => exact walks_pure h₂.1

theorem walks_descend (hsearch : o.Searching) (name : String) (best : Int) :
    Walks b (descend b name best) o fun _ o' => o'.Searching :=
  walks_get_bind (walks_descendFrom hsearch name _ best)

theorem walks_noteTimeout (hsearch : o.Searching) (d : Descent) :
    Walks b (noteTimeout d) o fun _ o' => o'.Searching := by
  cases d with
  | optimal v => exact walks_pure hsearch
  | interrupted v => exact ⟨.single (.note ⟨rfl, rfl, rfl, rfl, rfl⟩), hsearch⟩

theorem walks_finishDescents (hsearch : o.Searching) (hfound : o.best ≠ none) :
    Walks b (finishDescents b) o fun _ _ => True := by
  refine walks_get_bind ?_
  split_ifs
  · exact walks_enter hsearch.pastEncoding (by decide) (by simp)
  · exact walks_enter hsearch.pastEncoding (by decide) fun _ => hfound

theorem walks_anySolution (hsearch : o.Searching) :
    Walks b (anySolution b) o fun _ _ => True := by
  refine (walks_firstSolution hsearch).bind fun r o₁ _ h₁ => ?_
  cases r with
  | none => exact walks_pure trivial
  | some s =>
    obtain ⟨hsearch₁, hreceived⟩ := h₁ s rfl
    refine walks_record_bind hreceived (walks_enter ?_ (by decide) fun _ => Option.some_ne_none s)
    exact hsearch₁.pastEncoding

theorem walks_beginSearch_bind {f : Unit → Action σ β} {post : β → Optimizer σ → Prop}
    (h : ∀ o', Path b o o' → o'.Searching → Walks b (f ()) o' post) :
    Walks b (beginSearch b >>= f) o post := by
  have hbegin : Walks b (beginSearch b) o fun _ o' => o'.Searching := by
    refine walks_expect_bind fun hphase => ?_
    refine walks_modify_bind (.note ⟨rfl, rfl, rfl, rfl, rfl⟩) ?_
    have hpast : o.PastEncoding := by simp [PastEncoding, hphase]
    exact ⟨.single (.enter hpast (by decide) (by simp)), rfl⟩
  exact hbegin.bind fun _ o' hpath hsearch => h o' hpath hsearch

end Shared

/-! ### Strategies -/

section Strategies

variable {b : Backend σ} {o : Optimizer σ}

theorem walks_searchLinear : Walks b (searchLinear b) o fun _ _ => True := by
  refine walks_beginSearch_bind fun o₁ _ h₁ => walks_get_bind ?_
  split_ifs
  · refine (walks_firstSolution h₁).bind fun r o₂ _ h₂ => ?_
    cases r with
    | none => exact walks_pure trivial
    | some s =>
      obtain ⟨hsearch₂, hreceived⟩ := h₂ s rfl
      refine walks_valueOf_bind fun v => walks_record_bind hreceived ?_
      refine (walks_descend ?_ _ _).bind fun d o₃ hpath₃ h₃ => ?_
      · exact hsearch₂
      have hfound : o₃.best ≠ none := hpath₃.found (Option.some_ne_none s)
      cases d with
      | optimal v => exact walks_enter h₃.pastEncoding (by decide) fun _ => hfound
      | interrupted v => exact walks_enter h₃.pastEncoding (by decide) (by simp)
  · exact walks_anySolution h₁

/-- A bisection asks and records in turn. -/
theorem walks_bisect (hsearch : o.Searching) (hfound : o.best ≠ none) (fuel : Nat) (lb ub : Int) :
    Walks b (bisect b fuel lb ub) o fun _ _ => True := by
  induction fuel generalizing o lb ub with
  | zero =>
    unfold bisect
    split_ifs
    · exact walks_enter hsearch.pastEncoding (by decide) fun _ => hfound
    · exact walks_enter hsearch.pastEncoding (by decide) (by simp)
  | succ fuel ih =>
    refine walks_checked_bind fun width _ => ?_
    split_ifs
    · exact walks_enter hsearch.pastEncoding (by decide) fun _ => hfound
    refine (walks_assume hsearch _ _ _).bind fun _ o₁ hpath₁ h₁ => ?_
    refine (walks_ask h₁ _).bind fun outcome o₂ hpath₂ h₂ => ?_
    obtain ⟨hsearch₂, hreceived⟩ := h₂
    have hfound₂ : o₂.best ≠ none := hpath₂.found (hpath₁.found hfound)
    -- The induction goes on with either half; a solution was found before and stays.
    cases outcome with
    | sat s =>
      refine walks_valueOf_bind fun v => walks_bindValue_bind (walks_record_bind ?_ (ih ?_ ?_ _ _))
      · exact hreceived s rfl
      · exact hsearch₂
      · exact Option.some_ne_none s
    | unsat =>
      refine walks_bindValue_bind (ih ?_ ?_ _ _)
      · exact hsearch₂
      · exact hfound₂
    | interrupted => exact walks_enter hsearch₂.pastEncoding (by decide) (by simp)

theorem walks_searchBinary : Walks b (searchBinary b) o fun _ _ => True := by
  refine walks_beginSearch_bind fun o₁ _ h₁ => walks_get_bind ?_
  split_ifs
  · refine (walks_firstSolution h₁).bind fun r o₂ _ h₂ => ?_
    cases r with
    | none => exact walks_pure trivial
    | some s =>
      obtain ⟨hsearch₂, hreceived⟩ := h₂ s rfl
      refine walks_valueOf_bind fun v => walks_record_bind hreceived (walks_get_bind ?_)
      refine walks_bisect ?_ ?_ _ _ _
      · exact hsearch₂
      · exact Option.some_ne_none s
  · exact walks_anySolution h₁

/-- A step that goes on has found something. -/
theorem walks_minimizeStep (hsearch : o.Searching) (name : String) :
    Walks b (minimizeStep b name) o fun r o' => r = true → o'.Searching ∧ o'.best ≠ none := by
  refine (walks_firstSolution hsearch).bind fun r o₁ _ h₁ => ?_
  cases r with
  | none => exact walks_pure (by simp)
  | some s =>
    obtain ⟨hsearch₁, hreceived⟩ := h₁ s rfl
    refine walks_valueOf_bind fun v => walks_record_bind hreceived ?_
    refine (walks_descend ?_ _ _).bind fun d o₂ hpath₂ h₂ => ?_
    · exact hsearch₁
    refine (walks_noteTimeout h₂ d).bind fun _ o₃ hpath₃ h₃ => ?_
    refine walks_bindValue_bind (walks_pure fun _ => ⟨h₃, ?_⟩)
    exact hpath₃.found (hpath₂.found (Option.some_ne_none s))

theorem walks_addLighterTiers (prices : List Nat) :
    Walks b (addLighterTiers prices) o fun _ o' => o'.phase = o.phase := by
  induction prices generalizing o with
  | nil => exact walks_pure rfl
  | cons price prices ih =>
    refine (walks_addTier (.lighterTier price) price).bind fun ub o₁ _ h₁ => ?_
    exact ih.bind fun parts o₂ _ h₂ => walks_pure (h₂.trans h₁)

/-- The second step starts from a solution of the first. -/
theorem walks_searchLighter (hsearch : o.Searching) (prices : List Nat) :
    Walks b (searchLighter b prices) o fun r o' => r = true → o'.Searching ∧ o'.best ≠ none := by
  refine (walks_addLighterTiers prices).bind fun parts o₁ _ h₁ => ?_
  refine walks_checked_bind fun exprs hexprs => ?_
  have hsum : Formulation.sumDefinition (Names.Purpose.aux .lighter).name parts = .ok exprs :=
    hexprs
  refine walks_queue_bind (Model.explainsAll_sumDefinition .lighter hsum) (walks_minimizeStep ?_ _)
  exact h₁.trans hsearch

theorem walks_searchTwoStep (secondStep : Bool) :
    Walks b (searchTwoStep b secondStep) o fun _ _ => True := by
  refine walks_beginSearch_bind fun o₁ _ h₁ => walks_get_bind ?_
  split
  · exact walks_anySolution h₁
  · next heavy light _ =>
    refine (walks_addTier .heaviest heavy).bind fun ub o₂ _ h₂ => ?_
    refine (walks_minimizeStep (h₂.trans h₁) _).bind fun r o₃ _ h₃ => ?_
    cases r with
    | false => exact walks_pure trivial
    | true =>
      obtain ⟨hsearch₃, hfound₃⟩ := h₃ rfl
      cases secondStep with
      | false => exact walks_finishDescents hsearch₃ hfound₃
      | true =>
        refine (walks_searchLighter hsearch₃ light).bind fun r o₄ _ h₄ => ?_
        cases r with
        | false => exact walks_pure trivial
        | true => exact walks_finishDescents (h₄ rfl).1 (h₄ rfl).2

theorem walks_assumePins (hsearch : o.Searching) (pins : List (String × Int)) :
    Walks b (assumePins b pins) o fun _ o' => o'.Searching := by
  induction pins generalizing o with
  | nil => exact walks_pure hsearch
  | cons pin pins ih => exact (walks_assume hsearch _ _ _).bind fun _ o₁ _ h₁ => ih h₁

/-- A tier is asked for with its pins, and then without. -/
theorem walks_askTier (hsearch : o.Searching) (name : String) (warm : Option WarmStart) :
    Walks b (askTier b name warm) o fun outcome o' =>
      o'.Searching ∧ ∀ s, outcome = .sat s → o'.Received s := by
  cases warm with
  | none => exact walks_ask hsearch none
  | some warm =>
    refine (walks_assumePins hsearch _).bind fun _ o₁ _ h₁ => ?_
    refine (walks_assume h₁ _ _ _).bind fun _ o₂ _ h₂ => ?_
    refine (walks_ask h₂ none).bind fun outcome o₃ _ h₃ => ?_
    cases outcome with
    | sat s => exact walks_pure h₃
    | unsat => exact walks_ask h₃.1 none
    | interrupted => exact walks_pure h₃

/-- How the search goes on after the first question of a tier. -/
def afterTier (b : Backend σ) (first : Bool) (price : Nat) (rest : List Nat) :
    Outcome → Action σ Unit
  | .unsat => if first then enter b .infeasible else Step.fail (.stuckTier price)
  | .interrupted => enter b .timeout
  | .sat s => do
    let start ← valueOf s (Names.tier price)
    record s
    let d ← descend b (Names.tier price) start
    noteTimeout d
    bindValue (Names.tier price) .eq d.value
    minimizeTiers b false none rest

/-- A tier is added, asked for, and followed by the rest. -/
theorem minimizeTiers_cons (b : Backend σ) (first : Bool) (warm : Option WarmStart) (price : Nat)
    (rest : List Nat) :
    minimizeTiers b first warm (price :: rest) = addTier (Names.tier price) price >>= fun _ =>
      askTier b (Names.tier price) warm >>= afterTier b first price rest := by
  rw [minimizeTiers]
  refine bind_congr fun _ => bind_congr fun outcome => ?_
  cases outcome <;> rfl

/-- What follows the answer for a tier is a path. -/
theorem walks_afterTier (hsearch : o.Searching) {first : Bool} {price : Nat} {rest : List Nat}
    {outcome : Outcome} (houtcome : ∀ s, outcome = .sat s → o.Received s)
    (hrest : ∀ o' : Optimizer σ, o'.Searching → o'.best ≠ none →
      Walks b (minimizeTiers b false none rest) o' fun _ _ => True) :
    Walks b (afterTier b first price rest outcome) o fun _ _ => True := by
  cases outcome with
  | unsat =>
    show Walks b (if first then enter b .infeasible else Step.fail (.stuckTier price)) o _
    split_ifs
    · exact walks_enter hsearch.pastEncoding (by decide) (by simp)
    · exact walks_fail
  | interrupted => exact walks_enter hsearch.pastEncoding (by decide) (by simp)
  | sat s =>
    refine walks_valueOf_bind fun v => walks_record_bind (houtcome s rfl) ?_
    refine (walks_descend ?_ _ _).bind fun d o₁ hpath₁ h₁ => ?_
    · exact hsearch
    refine (walks_noteTimeout h₁ d).bind fun _ o₂ hpath₂ h₂ =>
      walks_bindValue_bind (hrest _ ?_ ?_)
    · exact h₂
    · exact hpath₂.found (hpath₁.found (Option.some_ne_none s))

theorem walks_minimizeTiers (hsearch : o.Searching) (first : Bool) (warm : Option WarmStart)
    (prices : List Nat) (hfound : prices = [] → o.best ≠ none) :
    Walks b (minimizeTiers b first warm prices) o fun _ _ => True := by
  induction prices generalizing o first warm with
  | nil => exact walks_finishDescents hsearch (hfound rfl)
  | cons price prices ih =>
    rw [minimizeTiers_cons]
    refine (walks_addTier (.tier price) price).bind fun ub o₁ _ h₁ => ?_
    refine (walks_askTier (h₁.trans hsearch) _ warm).bind fun outcome o₂ _ h₂ => ?_
    exact walks_afterTier h₂.1 h₂.2 fun o' hsearch' hbest => ih hsearch' _ _ fun _ => hbest

theorem walks_optimizeTiers (hsearch : o.Searching) (warm : Option WarmStart) :
    Walks b (optimizeTiers b warm) o fun _ _ => True := by
  refine walks_get_bind ?_
  split
  · exact walks_anySolution hsearch
  · next hne => exact walks_minimizeTiers hsearch true warm _ fun hnil => absurd hnil hne

theorem walks_searchIncremental : Walks b (searchIncremental b) o fun _ _ => True :=
  walks_beginSearch_bind fun _ _ hsearch => walks_optimizeTiers hsearch none

theorem walks_localLog (run : LocalSearch.Runner) :
    Walks b (localLog run) o fun _ o' => o'.phase = o.phase := by
  refine walks_get_bind (walks_except_bind fun q _ => ?_)
  refine walks_modify_bind (.note ⟨rfl, rfl, rfl, rfl, rfl⟩) ?_
  cases q.result (run q) with
  | ok r => exact walks_pure rfl
  | error e => exact walks_fail

theorem walks_searchHybrid (run : LocalSearch.Runner) :
    Walks b (searchHybrid b run) o fun _ _ => True := by
  refine walks_beginSearch_bind fun o₁ _ h₁ => ?_
  refine (walks_localLog run).bind fun log o₂ _ h₂ => walks_get_bind ?_
  refine walks_except_bind fun warm _ => ?_
  exact walks_optimizeTiers (h₂.trans h₁) warm

end Strategies

end Optimizer

namespace Strategy

open Optimizer

variable {σ : Type} {b : Backend σ} {o : Optimizer σ}

/-- **Formulating** is a path of moves. -/
theorem walks_formulate (strategy : Strategy) :
    Walks b (strategy.formulate b) o fun _ _ => True := by
  cases strategy with
  | linear | binary => exact walks_formulateAll
  | firstStep | twoStep | incremental | hybrid => exact walks_formulateHard

/-- **Searching** is a path of moves. -/
theorem walks_search (run : LocalSearch.Runner) (strategy : Strategy) :
    Walks b (strategy.search b run) o fun _ _ => True := by
  cases strategy with
  | linear => exact walks_searchLinear
  | binary => exact walks_searchBinary
  | firstStep => exact walks_searchTwoStep false
  | twoStep => exact walks_searchTwoStep true
  | incremental => exact walks_searchIncremental
  | hybrid => exact walks_searchHybrid run

end Strategy

end WeightedCsp

import WeightedCsp.Word

/-!
# Running steps

Inversion of runs: what a step that is put together from others has done, read off its result.
The statements about `ok` are used to follow a run that succeeds through its parts; those about
`error` say where a run that fails has stopped.
-/

namespace WeightedCsp

namespace Step

variable {ε δ σ α β : Type}

theorem bind_eq_ok {x : Step ε σ α} {f : α → Step ε σ β} {s s' : σ} {b : β} :
    (x >>= f) s = .ok b s' ↔ ∃ a t, x s = .ok a t ∧ f a t = .ok b s' := by
  show EStateM.bind x f s = _ ↔ _
  unfold EStateM.bind
  cases h : x s with
  | ok a t =>
    constructor
    · intro hf
      exact ⟨a, t, rfl, hf⟩
    · rintro ⟨a', t', ⟨⟩, hf⟩
      exact hf
  | error e t => simp

theorem bind_eq_error {x : Step ε σ α} {f : α → Step ε σ β} {s s' : σ} {e : Failure ε} :
    (x >>= f) s = .error e s' ↔
      x s = .error e s' ∨ ∃ a t, x s = .ok a t ∧ f a t = .error e s' := by
  show EStateM.bind x f s = _ ↔ _
  unfold EStateM.bind
  cases h : x s with
  | ok a t =>
    constructor
    · intro hf
      exact .inr ⟨a, t, rfl, hf⟩
    · rintro (h' | ⟨a', t', ⟨⟩, hf⟩)
      · cases h'
      · exact hf
  | error e t => simp

@[simp]
theorem pure_eq_ok {a b : α} {s s' : σ} :
    (pure a : Step ε σ α) s = .ok b s' ↔ a = b ∧ s = s' := by
  show EStateM.Result.ok a s = .ok b s' ↔ _
  constructor
  · rintro ⟨⟩
    exact ⟨rfl, rfl⟩
  · rintro ⟨rfl, rfl⟩
    rfl

@[simp]
theorem pure_ne_error {a : α} {s s' : σ} {e : Failure ε} :
    (pure a : Step ε σ α) s = .error e s' ↔ False := by
  constructor
  · intro h
    cases h
  · exact False.elim

@[simp]
theorem get_eq_ok {s s' t : σ} : (get : Step ε σ σ) s = .ok t s' ↔ s = t ∧ s = s' := by
  show EStateM.Result.ok s s = .ok t s' ↔ _
  constructor
  · rintro ⟨⟩
    exact ⟨rfl, rfl⟩
  · rintro ⟨rfl, rfl⟩
    rfl

@[simp]
theorem get_ne_error {s s' : σ} {e : Failure ε} :
    (get : Step ε σ σ) s = .error e s' ↔ False := by
  constructor
  · intro h
    cases h
  · exact False.elim

theorem get_bind_apply {f : σ → Step ε σ α} {s : σ} : (get >>= f) s = f s s := rfl

@[simp]
theorem modify_eq_ok {f : σ → σ} {s s' : σ} {u : Unit} :
    (modify f : Step ε σ Unit) s = .ok u s' ↔ f s = s' := by
  show EStateM.Result.ok () (f s) = .ok u s' ↔ _
  constructor
  · rintro ⟨⟩
    rfl
  · rintro rfl
    rfl

@[simp]
theorem modify_ne_error {f : σ → σ} {s s' : σ} {e : Failure ε} :
    (modify f : Step ε σ Unit) s = .error e s' ↔ False := by
  constructor
  · intro h
    cases h
  · exact False.elim

@[simp]
theorem fail_ne_ok {e : ε} {a : α} {s s' : σ} :
    (fail e : Step ε σ α) s = .ok a s' ↔ False := by
  constructor
  · intro h
    cases h
  · exact False.elim

@[simp]
theorem fail_eq_error {e : ε} {f : Failure ε} {s s' : σ} :
    (fail e : Step ε σ α) s = .error f s' ↔ .error e = f ∧ s = s' := by
  show EStateM.Result.error (.error e) s = .error f s' ↔ _
  constructor
  · rintro ⟨⟩
    exact ⟨rfl, rfl⟩
  · rintro ⟨rfl, rfl⟩
    rfl

@[simp]
theorem checked_eq_ok {x : Checked α} {a : α} {s s' : σ} :
    (liftM x : Step ε σ α) s = .ok a s' ↔ x = .ok a ∧ s = s' := by
  cases x with
  | ok b =>
    show EStateM.Result.ok b s = .ok a s' ↔ _
    constructor
    · rintro ⟨⟩
      exact ⟨rfl, rfl⟩
    · rintro ⟨⟨⟩, rfl⟩
      rfl
  | error t =>
    constructor
    · intro h
      cases h
    · rintro ⟨⟨⟩, -⟩

@[simp]
theorem checked_eq_error {x : Checked α} {e : Failure ε} {s s' : σ} :
    (liftM x : Step ε σ α) s = .error e s' ↔ (∃ t, x = .error t ∧ e = .fault t) ∧ s = s' := by
  cases x with
  | ok b =>
    constructor
    · intro h
      cases h
    · rintro ⟨⟨t, ⟨⟩, -⟩, -⟩
  | error t =>
    show EStateM.Result.error (.fault t) s = .error e s' ↔ _
    constructor
    · rintro ⟨⟩
      exact ⟨⟨t, rfl, rfl⟩, rfl⟩
    · rintro ⟨⟨t', ⟨⟩, rfl⟩, rfl⟩
      rfl

@[simp]
theorem except_eq_ok {x : Except (Failure ε) α} {a : α} {s s' : σ} :
    (liftM x : Step ε σ α) s = .ok a s' ↔ x = .ok a ∧ s = s' := by
  cases x with
  | ok b =>
    show EStateM.Result.ok b s = .ok a s' ↔ _
    constructor
    · rintro ⟨⟩
      exact ⟨rfl, rfl⟩
    · rintro ⟨⟨⟩, rfl⟩
      rfl
  | error t =>
    constructor
    · intro h
      cases h
    · rintro ⟨⟨⟩, -⟩

@[simp]
theorem except_eq_error {x : Except (Failure ε) α} {e : Failure ε} {s s' : σ} :
    (liftM x : Step ε σ α) s = .error e s' ↔ x = .error e ∧ s = s' := by
  cases x with
  | ok b =>
    constructor
    · intro h
      cases h
    · rintro ⟨⟨⟩, -⟩
  | error t =>
    show EStateM.Result.error t s = .error e s' ↔ _
    constructor
    · rintro ⟨⟩
      exact ⟨rfl, rfl⟩
    · rintro ⟨⟨⟩, rfl⟩
      rfl

/-! ### Steps in another setting -/

/-- A larger error type does not change what succeeds. -/
theorem mapError_eq_ok {δ : Type} {f : ε → δ} {x : Step ε σ α} {a : α} {s t : σ} :
    x.mapError f s = .ok a t ↔ x s = .ok a t := by
  unfold mapError
  cases x s <;> simp

theorem build_eq_ok {x : Step ε σ Unit} {s t : σ} : x.build s = .ok t ↔ x s = .ok () t := by
  unfold build
  cases x s <;> simp

/-! ### What every run keeps -/

/-- The state in which a step ends, whether it succeeds or fails. -/
def after (x : Step ε σ α) (s : σ) : σ :=
  match x s with
  | .ok _ t => t
  | .error _ t => t

theorem after_of_ok {x : Step ε σ α} {s t : σ} {a : α} (h : x s = .ok a t) : x.after s = t := by
  simp only [after, h]

theorem after_of_error {x : Step ε σ α} {s t : σ} {e : Failure ε} (h : x s = .error e t) :
    x.after s = t := by
  simp only [after, h]

/-- The result of a step that succeeds. -/
def result? (x : Step ε σ α) (s : σ) : Option α :=
  match x s with
  | .ok a _ => some a
  | .error _ _ => none

theorem eq_ok_of_result? {x : Step ε σ α} {s : σ} {a : α} (h : x.result? s = some a) :
    x s = .ok a (x.after s) := by
  unfold result? at h
  unfold after
  cases hx : x s with
  | ok b t =>
    rw [hx] at h
    cases h
    rfl
  | error e t =>
    rw [hx] at h
    cases h

/-- Every run of the step, also one that fails, moves along the relation. -/
def Follows (r : σ → σ → Prop) (x : Step ε σ α) : Prop := ∀ s, r s (x.after s)

section Follows

variable {r : σ → σ → Prop} {x : Step ε σ α}

theorem Follows.ok (hx : x.Follows r) {s t : σ} {a : α} (h : x s = .ok a t) : r s t := by
  rw [← after_of_ok h]
  exact hx s

theorem Follows.error (hx : x.Follows r) {s t : σ} {e : Failure ε} (h : x s = .error e t) :
    r s t := by
  rw [← after_of_error h]
  exact hx s

theorem Follows.bind {f : α → Step ε σ β} (trans : ∀ {a b c}, r a b → r b c → r a c)
    (hx : x.Follows r) (hf : ∀ a, (f a).Follows r) : (x >>= f).Follows r := by
  intro s
  show r s (after (EStateM.bind x f) s)
  unfold after EStateM.bind
  cases h : x s with
  | error e t => exact hx.error h
  | ok a t => exact trans (hx.ok h) (hf a t)

theorem follows_of_after_eq (refl : ∀ s, r s s) (h : ∀ s, x.after s = s) : x.Follows r := by
  intro s
  rw [h s]
  exact refl s

theorem after_pure (a : α) (s : σ) : (pure a : Step ε σ α).after s = s := rfl

theorem after_get (s : σ) : (get : Step ε σ σ).after s = s := rfl

theorem after_fail (e : ε) (s : σ) : (fail e : Step ε σ α).after s = s := rfl

theorem after_checked (c : Checked α) (s : σ) : (liftM c : Step ε σ α).after s = s := by
  cases c <;> rfl

theorem after_except (c : Except (Failure ε) α) (s : σ) :
    (liftM c : Step ε σ α).after s = s := by
  cases c <;> rfl

end Follows

end Step

/-! ### Computations without state -/

theorem Checked.bind_eq_ok {ε α β : Type} {x : Except ε α} {f : α → Except ε β} {b : β} :
    (x >>= f) = .ok b ↔ ∃ a, x = .ok a ∧ f a = .ok b := by
  cases x with
  | ok a =>
    constructor
    · intro h
      exact ⟨a, rfl, h⟩
    · rintro ⟨a', ⟨⟩, h⟩
      exact h
  | error e =>
    constructor
    · intro h
      cases h
    · rintro ⟨a, ⟨⟩, -⟩

theorem Checked.ok_bind {ε α β : Type} (a : α) (f : α → Except ε β) : (Except.ok a >>= f) = f a :=
  rfl

theorem Checked.lift_ok {ε α : Type} (a : α) :
    (liftM (Except.ok a : Checked α) : Except (Failure ε) α) = .ok a := rfl

/-- A computation on every entry, each with a known result. -/
theorem Checked.mapM_eq_ok {ε α β : Type} {f : α → Except ε β} {g : α → β} {as : List α}
    (h : ∀ a ∈ as, f a = .ok (g a)) : as.mapM f = .ok (as.map g) := by
  induction as with
  | nil => rfl
  | cons a as ih =>
    obtain ⟨ha, has⟩ := List.forall_mem_cons.1 h
    rw [List.mapM_cons, ha, ih has]
    rfl

/-- A computation on every entry fails where it fails on one of them. -/
theorem Checked.mapM_eq_error {ε α β : Type} {f : α → Except ε β} {as : List α} {e : ε}
    (h : as.mapM f = .error e) : ∃ a ∈ as, f a = .error e := by
  induction as with
  | nil => cases h
  | cons a as ih =>
    rw [List.mapM_cons] at h
    cases hhead : f a with
    | error e' =>
      rw [hhead] at h
      cases h
      exact ⟨a, List.mem_cons_self, hhead⟩
    | ok b =>
      rw [hhead] at h
      cases hrest : as.mapM f with
      | error e' =>
        rw [hrest] at h
        cases h
        obtain ⟨a', ha', hf⟩ := ih hrest
        exact ⟨a', List.mem_cons_of_mem _ ha', hf⟩
      | ok bs =>
        rw [hrest] at h
        cases h

theorem Checked.lift_eq_ok {ε α : Type} {x : Checked α} {a : α} :
    (liftM x : Except (Failure ε) α) = .ok a ↔ x = .ok a := by
  cases x with
  | ok b =>
    show Except.ok b = .ok a ↔ _
    simp
  | error t =>
    show Except.error (Failure.fault t) = .ok a ↔ _
    simp

theorem Failure.ofExcept_eq_ok {ε α : Type} {x : Except ε α} {a : α} :
    Failure.ofExcept x = .ok a ↔ x = .ok a := by
  cases x <;> simp [Failure.ofExcept]

end WeightedCsp

import WeightedCsp.Proofs.Csp.Bounds
import WeightedCsp.Proofs.Method.Runs

/-!
# Descending to the least value

A descent starts from a solution and asks for less of one variable until that is refused.  Its
invariant (`Descending`) is that the best solution so far satisfies everything and has the value
that is to be improved.  Every answer is smaller than the one before, so the fuel lasts, the bounds
fall, and there are at most as many questions as the value falls by, and one more.  What is refused
at the end is refused by all values that satisfy what was said at the start: the bounds that were
added on the way are bounds that a smaller value satisfies (`runs_descend`).  Interrupted or not, no
solution that was found on the way is better than the best one (`Foremost`).

A search that goes on after a descent notes whether it was interrupted, and keeps what it came to as
a last bound (`runs_improve`).
-/

namespace WeightedCsp

/-- The descent was interrupted. -/
def Descent.isCut : Descent → Bool
  | .optimal _ => false
  | .interrupted _ => true

namespace Optimizer

variable {σ : Type} {b : Backend σ} {clauses : σ → List Clause} {values : String → List Int}
  {names : List String} {exprs : List Expr} {name : String} {best : Int} {o : Optimizer σ}
  {fair : Optimizer σ → Prop}

/-! ### The best solution so far -/

/-- No solution that was found has a smaller value than the best one. -/
def Foremost (name : String) (o : Optimizer σ) : Prop :=
  ∀ q ∈ o.questions, ∀ s, q.outcome = .sat s →
    ∃ t, o.best = some t ∧ t.value name ≤ s.value name

/-- An answer without a solution changes nothing. -/
theorem Foremost.keep (h : o.Foremost name) {o' : Optimizer σ} {q : Question}
    (hbest : o'.best = o.best) (hqs : o'.questions = o.questions ++ [q])
    (hq : ∀ s, q.outcome ≠ .sat s) : o'.Foremost name := by
  intro p hp s hs
  rw [hqs, List.mem_append, List.mem_singleton] at hp
  rw [hbest]
  rcases hp with hp | rfl
  · exact h p hp s hs
  · exact absurd hs (hq s)

/-- A solution with a smaller value may take the place of the best one. -/
theorem Foremost.replace (h : o.Foremost name) {o' : Optimizer σ} {s t : Solution}
    {bound : Option Int} (hbest : o.best = some t) (hbest' : o'.best = some s)
    (hqs : o'.questions = o.questions ++ [⟨bound, .sat s⟩]) (hle : s.value name ≤ t.value name) :
    o'.Foremost name := by
  intro q hq u hu
  refine ⟨s, hbest', ?_⟩
  rw [hqs, List.mem_append, List.mem_singleton] at hq
  rcases hq with hq | rfl
  · obtain ⟨t', ht', hle'⟩ := h q hq u hu
    cases hbest.symm.trans ht'
    exact Int.le_trans hle hle'
  · cases hu
    exact Int.le_refl _

/-! ### The descent -/

/-- A descent may begin: the best solution satisfies everything and has the value `best`. -/
structure Descending (clauses : σ → List Clause) (values : String → List Int)
    (names : List String) (exprs : List Expr) (name : String) (best : Int) (o : Optimizer σ) :
    Prop where
  /-- The session stands for the expressions. -/
  stands : o.session.Stands clauses values names exprs []
  /-- The objective is declared. -/
  declared : name ∈ names
  /-- The objective is never negative. -/
  nonneg : ∀ value, Expr.AllHold value exprs → 0 ≤ value name
  /-- The best solution satisfies the expressions and has the value. -/
  solution : ∃ s, o.best = some s ∧ Outcome.RightFor exprs [] (.sat s) ∧ s.value name = best

/-- The solution that a question found is where a descent begins. -/
theorem Asked.descending {bound : Option Int} {s : Solution} {o' : Optimizer σ}
    (h : Asked b clauses values names exprs [] bound o (.sat s) o') (hname : name ∈ names)
    (hnonneg : ∀ value, Expr.AllHold value exprs → 0 ≤ value name) :
    Descending clauses values names exprs name (s.value name) { o' with best := some s } := by
  obtain ⟨left, hleft, hused⟩ := h.stands
  obtain ⟨rfl, -⟩ := hused (by simp)
  exact ⟨hleft, hname, hnonneg, s, rfl, h.right, rfl⟩

/-- The questions of a descent from a value, with the number of questions before and after. -/
structure Falling (exprs : List Expr) (name : String) (best : Int) (qs : List Question)
    (d : Descent) (before after : Nat) : Prop where
  /-- The bounds fall. -/
  bounds : (qs.filterMap (·.bound)).Pairwise (· > ·)
  /-- All of them are below the value. -/
  below : ∀ k ∈ qs.filterMap (·.bound), k < best
  /-- Without an interruption the value is the least, and there are few questions. -/
  optimal : ∀ v, d = .optimal v → (∀ value, Expr.AllHold value exprs → v ≤ value name) ∧
    (∀ q ∈ qs, q.outcome ≠ .interrupted) ∧ after = before + qs.length ∧
    (qs.length : Int) ≤ best - v + 1
  /-- Otherwise a question was interrupted. -/
  interrupted : ∀ v, d = .interrupted v → ∃ q ∈ qs, q.outcome = .interrupted

/-- What a descent comes to. -/
structure Descended (b : Backend σ) (clauses : σ → List Clause) (values : String → List Int)
    (names : List String) (exprs : List Expr) (name : String) (best : Int) (o : Optimizer σ)
    (d : Descent) (o' : Optimizer σ) : Prop where
  /-- Nothing but the session, the account of questions and the best solution changes. -/
  frame : o' = { o with
    session := o'.session, solves := o'.solves, questions := o'.questions, best := o'.best }
  /-- The value does not rise. -/
  le : d.value ≤ best
  /-- The best solution satisfies the expressions and has the value. -/
  solution : ∃ s, o'.best = some s ∧ Outcome.RightFor exprs [] (.sat s) ∧ s.value name = d.value
  /-- No solution on the way was better. -/
  foremost : o.Foremost name → o'.Foremost name
  /-- Bounds were added that values up to the final one satisfy. -/
  stands : ∃ ks : List Int, (∀ k ∈ ks, d.value ≤ k) ∧
    Clear b clauses values names (exprs ++ ks.map (Expr.cmp name .le)) o'
  /-- The questions of the descent. -/
  questions : ∃ qs, o'.questions = o.questions ++ qs ∧
    Falling exprs name best qs d o.solves o'.solves

theorem descended_of_nonpos (h : Descending clauses values names exprs name best o)
    (hbest : best ≤ 0) : Descended b clauses values names exprs name best o (.optimal best) o := by
  refine ⟨rfl, Int.le_refl _, h.solution, id, ⟨[], by simp, ?_⟩, [], ?_, ?_⟩
  · simpa using clear_of_stands h.stands
  · rw [List.append_nil]
  · refine ⟨List.Pairwise.nil, by simp, fun v hv => ?_, fun v hv => by cases hv⟩
    cases hv
    refine ⟨fun value hvalue => hbest.trans (h.nonneg value hvalue), by simp, rfl, ?_⟩
    simp

/-- A question that does not find a better solution is the last one, and changes nothing else. -/
theorem Descending.last (h : Descending clauses values names exprs name best o) {outcome : Outcome}
    (hnone : ∀ t, outcome ≠ .sat t) {o' : Optimizer σ}
    (hasked : Asked b clauses values names exprs [⟨name, .le, best - 1⟩] (some (best - 1)) o outcome
      o') {d : Descent} (hd : d.value = best)
    (hfalling : Falling exprs name best [⟨some (best - 1), outcome⟩] d o.solves o'.solves) :
    Descended b clauses values names exprs name best o d o' := by
  obtain ⟨s, hbest, hright, hvalue⟩ := h.solution
  have hframe := hasked.frame
  have hqs : o'.questions = o.questions ++ [⟨some (best - 1), outcome⟩] := by rw [hframe]
  refine ⟨?_, hd.le, ⟨s, ?_, hright, hvalue.trans hd.symm⟩,
    fun hforemost => hforemost.keep (by rw [hframe]) hqs (by simpa using hnone),
    ⟨[], by simp, by simpa using hasked.clear⟩, _, hqs, hfalling⟩
  · rw [hframe]
  · rw [hframe]
    exact hbest

/-- A question that finds nothing below the value ends the descent. -/
theorem descended_of_unsat (h : Descending clauses values names exprs name best o)
    {o' : Optimizer σ} (hasked : Asked b clauses values names exprs [⟨name, .le, best - 1⟩]
      (some (best - 1)) o .unsat o') :
    Descended b clauses values names exprs name best o (.optimal best) o' := by
  obtain ⟨left, hleft, hused⟩ := hasked.stands
  obtain ⟨rfl, hsolves⟩ := hused (by simp)
  -- A cheaper assignment would have satisfied the bound that was refused.
  have hmin : ∀ value, Expr.AllHold value exprs → best ≤ value name := by
    intro value hall
    by_contra hlt
    refine hasked.right ⟨value, hall, fun a ha => ?_⟩
    rw [List.mem_singleton.1 ha]
    show value name ≤ best - 1
    omega
  refine h.last (by simp) hasked rfl
    ⟨by simp, by simp, fun v hv => ?_, fun v hv => by cases hv⟩
  cases hv
  exact ⟨hmin, by simp, hsolves, by simp⟩

theorem descended_of_interrupted (h : Descending clauses values names exprs name best o)
    {o' : Optimizer σ}
    (hasked : Asked b clauses values names exprs [⟨name, .le, best - 1⟩] (some (best - 1)) o
      .interrupted o') :
    Descended b clauses values names exprs name best o (.interrupted best) o' := by
  refine h.last (by simp) hasked rfl
    ⟨by simp, by simp, fun v hv => ?_, fun v _ => ⟨_, List.mem_cons_self, rfl⟩⟩
  cases hv

/-- After a better solution is found and its value made a bound, the descent may go on. -/
theorem Descending.next (h : Descending clauses values names exprs name best o) {s : Solution}
    {o' : Optimizer σ}
    (hasked : Asked b clauses values names exprs [⟨name, .le, best - 1⟩] (some (best - 1)) o
      (.sat s) o') :
    s.value name < best ∧ Descending clauses values names
      (exprs ++ [Expr.cmp name .le (s.value name)]) name (s.value name)
      { o' with
        session := o'.session.addExprs [Expr.cmp name .le (s.value name)], best := some s } := by
  obtain ⟨left, hleft, hused⟩ := hasked.stands
  obtain ⟨rfl, -⟩ := hused (by simp)
  obtain ⟨hvalues, hall, hassumed⟩ := hasked.right
  have hless : s.value name ≤ best - 1 := hassumed _ List.mem_cons_self
  refine ⟨by omega, hleft.bound h.declared .le _, h.declared, fun value hvalue => ?_, s, rfl, ?_,
    rfl⟩
  · exact h.nonneg value (Expr.allHold_append.1 hvalue).1
  · have hright : Outcome.RightFor exprs [] (.sat s) := ⟨hvalues, hall, by simp⟩
    refine hright.append (fun e he => ?_) ⟨Expr.holds_cmp.2 (Int.le_refl _), trivial⟩
    rw [List.mem_singleton.1 he]
    rfl

theorem Falling.cons {s : Solution} {qs : List Question} {d : Descent} {before after : Nat}
    (hless : s.value name < best) (hle : d.value ≤ s.value name)
    (h : Falling (exprs ++ [Expr.cmp name .le (s.value name)]) name (s.value name) qs d (before + 1)
      after) :
    Falling exprs name best (⟨some (best - 1), .sat s⟩ :: qs) d before after := by
  refine ⟨?_, ?_, fun v hv => ?_, fun v hv => ?_⟩
  · refine List.pairwise_cons.2 ⟨fun k hk => ?_, h.bounds⟩
    have := h.below k hk
    omega
  · refine List.forall_mem_cons.2 ⟨by omega, fun k hk => ?_⟩
    have := h.below k hk
    omega
  · subst hv
    obtain ⟨hmin, hanswered, hcount, hlength⟩ := h.optimal v rfl
    refine ⟨fun value hall => ?_, List.forall_mem_cons.2 ⟨by simp, hanswered⟩, ?_, ?_⟩
    · -- Values above the new bound are above the least value anyway.
      by_cases hbound : value name ≤ s.value name
      · exact hmin value (Expr.allHold_append.2 ⟨hall, Expr.holds_cmp.2 hbound, trivial⟩)
      · have hv : v ≤ s.value name := hle
        omega
    · rw [hcount, List.length_cons]
      omega
    · rw [List.length_cons]
      omega
  · obtain ⟨q, hq, hint⟩ := h.interrupted v hv
    exact ⟨q, List.mem_cons_of_mem _ hq, hint⟩

/-- A descent that goes on from a better solution. -/
theorem Descended.of_next (hbest : ∃ t, o.best = some t ∧ t.value name = best)
    {s : Solution} {o' o'' : Optimizer σ} {d : Descent} (hs : o'.best = some s)
    (hframe : o' = { o with
      session := o'.session, solves := o.solves + 1,
      questions := o.questions ++ [⟨some (best - 1), .sat s⟩], best := o'.best })
    (hless : s.value name < best)
    (h : Descended b clauses values names (exprs ++ [Expr.cmp name .le (s.value name)]) name
      (s.value name) o' d o'') :
    Descended b clauses values names exprs name best o d o'' := by
  obtain ⟨old, hold, rfl⟩ := hbest
  obtain ⟨t, hbest, hright, hvalue⟩ := h.solution
  obtain ⟨ks, hks, hclear⟩ := h.stands
  obtain ⟨qs, hqs, hfalling⟩ := h.questions
  have hle := h.le
  have hframe' := h.frame
  -- The bound of this question joins those of the later ones, and so does the question itself.
  refine ⟨?_, by omega, ⟨t, hbest, hright.of_append, hvalue⟩, fun hforemost => h.foremost ?_,
    ⟨s.value name :: ks, ?_, ?_⟩, ⟨some (old.value name - 1), .sat s⟩ :: qs, ?_, ?_⟩
  · rw [hframe', hframe]
  · exact hforemost.replace hold hs (by rw [hframe]) (Int.le_of_lt hless)
  · exact List.forall_mem_cons.2 ⟨hle, hks⟩
  · rwa [List.map_cons, List.append_cons]
  · rw [hqs, hframe]
    simp
  · refine Falling.cons hless hle ?_
    rwa [hframe] at hfalling

theorem runs_descendFrom (hb : b.Sound clauses) {fuel : Nat} (hfuel : o.Room → best ≤ fuel)
    (h : o.Room → Descending clauses values names exprs name best o) :
    Runs fair (descendFrom b name fuel best) o
      (Descended b clauses values names exprs name best o) := by
  induction fuel generalizing o exprs best with
  | zero =>
    refine runs_pure fun hroom => ?_
    have hbest : best ≤ 0 := hfuel hroom
    rw [if_pos hbest]
    exact descended_of_nonpos (h hroom) hbest
  | succ fuel ih =>
    unfold descendFrom
    split_ifs with hbest
    · exact runs_pure fun hroom => descended_of_nonpos (h hroom) hbest
    refine (runs_assume hb (fun hroom => (h hroom).stands) (fun hroom => (h hroom).declared) .le
      (best - 1)).bind fun _ o₁ hlater₁ h₁ => ?_
    refine (runs_ask hb (fun hroom => (h₁ hroom).2) (some (best - 1))).bind
      fun outcome o₂ hlater₂ h₂ => ?_
    have hstart : o₂.Room → o.Room := (hlater₁.trans hlater₂).room
    have hasked : o₂.Room → Asked b clauses values names exprs [⟨name, .le, best - 1⟩]
        (some (best - 1)) o outcome o₂ :=
      fun hroom => (h₂ hroom).of_session (h₁ (hlater₂.room hroom)).1
    cases outcome with
    | unsat => exact runs_pure fun hroom => descended_of_unsat (h (hstart hroom)) (hasked hroom)
    | interrupted =>
      exact runs_pure fun hroom => descended_of_interrupted (h (hstart hroom)) (hasked hroom)
    | sat s =>
      refine runs_valueOf_bind (fun hroom => ?_) ?_
      · obtain ⟨left, hleft, -⟩ := (hasked hroom).stands
        exact hleft.get? (hasked hroom).right (h (hstart hroom)).declared
      -- The value becomes a bound, and the solution the best one.
      refine runs_queue_bind (runs_record_bind ?_)
      have hnext := fun hroom : o₂.Room => (h (hstart hroom)).next (hasked hroom)
      have hfuel' : o₂.Room → s.value name ≤ fuel := by
        intro hroom
        have hless := (hnext hroom).1
        have hbound := hfuel (hstart hroom)
        omega
      have hrest := ih
        (o := { o₂ with
          session := o₂.session.addExprs [Expr.cmp name .le (s.value name)], best := some s })
        hfuel' fun hroom => (hnext hroom).2
      refine hrest.mono fun d o₃ hlater hroom hd => ?_
      have hroom₂ : o₂.Room := hlater.room hroom
      obtain ⟨left, -, hused⟩ := (hasked hroom₂).stands
      obtain ⟨t, ht, -, hvalue⟩ := (h (hstart hroom₂)).solution
      refine Descended.of_next ⟨t, ht, hvalue⟩ rfl ?_ (hnext hroom₂).1 hd
      rw [(hasked hroom₂).frame, (hused (by simp)).2]

/-- **Descents.** From a solution a descent comes to a solution with the least value, unless it is
interrupted. -/
theorem runs_descend (hb : b.Sound clauses)
    (h : o.Room → Descending clauses values names exprs name best o) :
    Runs fair (descend b name best) o (Descended b clauses values names exprs name best o) :=
  runs_get_bind (runs_descendFrom hb (fun _ => by omega) h)

/-! ### Keeping what a descent comes to -/

/-- Interruptions are noted, and nothing else is. -/
def Noted (o : Optimizer σ) : Prop := o.timedOut = true ↔ ¬o.Uninterrupted

theorem Noted.of_questions {o' : Optimizer σ} (h : o.Noted) {cut : Bool}
    (htime : o'.timedOut = (o.timedOut || cut)) {qs : List Question}
    (hqs : o'.questions = o.questions ++ qs)
    (hcut : cut = true ↔ ∃ q ∈ qs, q.outcome = .interrupted) : o'.Noted := by
  unfold Noted Uninterrupted at *
  rw [htime, Bool.or_eq_true, h, hcut, hqs, List.forall_mem_append, not_and_or]
  push Not
  exact Iff.rfl

theorem runs_noteTimeout_bind {β : Type} {d : Descent} {k : Unit → Action σ β}
    {post : β → Optimizer σ → Prop}
    (h : Runs fair (k ()) { o with timedOut := o.timedOut || d.isCut } post) :
    Runs fair (noteTimeout d >>= k) o post := by
  cases d with
  | optimal v =>
    rw [Descent.isCut, Bool.or_false] at h
    exact runs_bind_of_eq (show noteTimeout (.optimal v) o = .ok () o from rfl) (.refl o) h
  | interrupted v =>
    rw [Descent.isCut, Bool.or_true] at h
    exact runs_modify_bind ⟨Nat.le_refl _, List.prefix_refl _, rfl⟩ h

/-- A value was improved by a descent, and what the descent came to is kept as a bound. -/
structure Improved (b : Backend σ) (clauses : σ → List Clause) (values : String → List Int)
    (names : List String) (exprs : List Expr) (name : String) (op : Comparator) (o : Optimizer σ)
    (d : Descent) (ks : List Int) (o' : Optimizer σ) : Prop where
  /-- The model and what of it is formulated stay. -/
  kept : o'.model = o.model ∧ o'.formulation = o.formulation
  /-- The bounds of the descent do not fall below its end. -/
  le : ∀ k ∈ ks, d.value ≤ k
  /-- The session stands for the bounds too. -/
  clear : Clear b clauses values names (exprs ++ Expr.capped name op ks d.value) o'
  /-- The best solution satisfies the bounds. -/
  solution : ∃ s, o'.best = some s ∧
    Outcome.RightFor (exprs ++ Expr.capped name op ks d.value) [] (.sat s)
  /-- Unless it was interrupted, the descent came to the least value. -/
  least : d.isCut = false → ∀ value, Expr.AllHold value exprs → d.value ≤ value name
  /-- An interruption is noted. -/
  timedOut : o'.timedOut = (o.timedOut || d.isCut)
  /-- Nothing else is. -/
  noted : o.Noted → o'.Noted

theorem Descended.improved {s : Solution} {o' : Optimizer σ} {d : Descent} {op : Comparator}
    (hop : op.Caps) (hname : name ∈ names)
    (h : Descended b clauses values names exprs name best { o with best := some s } d o') :
    ∃ ks, Improved b clauses values names exprs name op o d ks { o' with
      timedOut := o'.timedOut || d.isCut
      session := o'.session.addExprs [Expr.cmp name op d.value] } := by
  obtain ⟨ks, hks, hclear⟩ := h.stands
  obtain ⟨t, hbest, hright, hvalue⟩ := h.solution
  obtain ⟨qs, hqs, hfalling⟩ := h.questions
  have hframe := h.frame
  -- The descent is cut exactly if one of its questions was interrupted.
  have hcut : d.isCut = true ↔ ∃ q ∈ qs, q.outcome = .interrupted := by
    cases d with
    | optimal v =>
      have hanswered := (hfalling.optimal v rfl).2.1
      simpa [Descent.isCut] using hanswered
    | interrupted v => simpa [Descent.isCut] using hfalling.interrupted v rfl
  have htime : (o'.timedOut || d.isCut) = (o.timedOut || d.isCut) := by rw [hframe]
  refine ⟨ks, ⟨?_, ?_⟩, hks, ?_, ⟨t, hbest, ?_⟩, fun hcut => ?_, htime,
    fun hnoted => hnoted.of_questions htime hqs hcut⟩
  · rw [hframe]
  · rw [hframe]
  · have hlast : Expr.Accepts values names [Expr.cmp name op d.value] :=
      ⟨Expr.fits_cmp hname op d.value, trivial⟩
    have hmore := hclear.addExprs hlast
    rw [List.append_assoc, show Expr.declaredBy [Expr.cmp name op d.value] = [] from rfl,
      List.append_nil] at hmore
    exact hmore
  · exact hright.append Expr.declares?_capped (Expr.allHold_capped hop hks hvalue)
  · cases d with
    | optimal v => exact (hfalling.optimal v rfl).1
    | interrupted v => cases hcut

/-- **Improving** a value from a solution, and keeping what that comes to as a bound. -/
theorem runs_improve {β : Type} (hb : b.Sound clauses) {op : Comparator} (hop : op.Caps)
    {s : Solution}
    (h : o.Room →
      Descending clauses values names exprs name (s.value name) { o with best := some s })
    {k : Descent → Action σ β} {post : β → Optimizer σ → Prop}
    (hk : ∀ d o', Later o o' →
      (o'.Room → ∃ ks, Improved b clauses values names exprs name op o d ks o') →
      Runs fair (k d) o' post) :
    Runs fair (do
      let first ← valueOf s name
      record s
      let d ← descend b name first
      noteTimeout d
      bindValue name op d.value
      k d) o post := by
  refine runs_valueOf_bind (fun hroom => ?_) (runs_record_bind ?_)
  · obtain ⟨t, ht, hright, -⟩ := (h hroom).solution
    cases ht
    exact hright.get? ((h hroom).stands.declared (h hroom).declared)
  · refine (runs_descend (o := { o with best := some s }) hb h).bind fun d o₁ hlater₁ h₁ => ?_
    refine runs_noteTimeout_bind (runs_queue_bind (hk d _ ?_ fun hroom => ?_))
    · exact ⟨hlater₁.next, hlater₁.questions, hlater₁.model⟩
    · exact (h₁ hroom).improved hop (h (hlater₁.room hroom)).declared

end Optimizer

end WeightedCsp

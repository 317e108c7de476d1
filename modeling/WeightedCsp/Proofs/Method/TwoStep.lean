import WeightedCsp.Proofs.Method.Tiers

/-!
# Two steps are lexicographic

The first step minimizes the sum of the penalties of the highest price and keeps it below its end.
The second step says all lighter tiers at once, with the weighted sum of their penalties
(`Lightened`), and minimizes that.

The bound of the first step is a bound on penalties, which may lie above the violations.  But where
it is the least one, no assignment has a smaller total, so the total of every further solution is
the least one too.  And whether it is the least one or not, the solution of the first step extends
to the lighter tiers, so the second step cannot be refused.
-/

namespace WeightedCsp

namespace Model

/-- The total violation of the highest price. -/
def heaviestTotal (m : Model) (value : String → Int) : Int :=
  m.tiers.head?.elim 0 fun t => m.tierTotal value t.price

/-- What the violations of all lower prices cost. -/
def lighterCost (m : Model) (value : String → Int) : Int :=
  (m.tiers.tail.map fun t => (t.price : Int) * m.tierTotal value t.price).sum

/-- No feasible assignment has a smaller total of the highest price. -/
def HeaviestLeast (m : Model) (value : String → Int) : Prop :=
  ∀ other, m.Feasible other → m.heaviestTotal value ≤ m.heaviestTotal other

/-- No feasible assignment with the same total of the highest price costs less at lower prices. -/
def LighterLeast (m : Model) (value : String → Int) : Prop :=
  ∀ other, m.Feasible other → m.heaviestTotal other = m.heaviestTotal value →
    m.lighterCost value ≤ m.lighterCost other

variable {m : Model} {heavy : Nat} {light : List Nat}

/-- Where nothing is soft, there is nothing to compare. -/
theorem least_of_no_tiers (h : m.tiers = []) (value : String → Int) :
    m.HeaviestLeast value ∧ m.LighterLeast value := by
  refine ⟨fun other _ => ?_, fun other _ _ => ?_⟩
  · rw [heaviestTotal, heaviestTotal, h]
    exact Int.le_refl _
  · rw [lighterCost, lighterCost, h]
    exact Int.le_refl _

theorem heaviestTotal_eq (h : m.tiers.map (·.price) = heavy :: light) (value : String → Int) :
    m.heaviestTotal value = m.tierTotal value heavy := by
  obtain ⟨t, ts, hts, rfl, -⟩ := List.map_eq_cons_iff.1 h
  rw [heaviestTotal, hts]
  rfl

theorem lighterCost_eq (h : m.tiers.map (·.price) = heavy :: light) (value : String → Int) :
    m.lighterCost value = (light.map fun w : Nat => (w : Int) * m.tierTotal value w).sum := by
  obtain ⟨t, ts, hts, -, rfl⟩ := List.map_eq_cons_iff.1 h
  rw [lighterCost, hts, List.map_map]
  rfl

theorem greatest_lighter (h : m.tiers.map (·.price) = heavy :: light) :
    m.greatest .lighter = m.pricesBound light := by
  obtain ⟨t, ts, hts, -, rfl⟩ := List.map_eq_cons_iff.1 h
  rw [greatest, hts]
  rfl

theorem sums_heaviest (h : m.tiers.map (·.price) = heavy :: light) : m.Sums .heaviest heavy := by
  refine ⟨trivial, ?_, ?_, fun value => heaviestTotal_eq h value⟩
  · obtain ⟨t, ts, hts, rfl, -⟩ := List.map_eq_cons_iff.1 h
    rw [auxPrice, hts]
    rfl
  · obtain ⟨t, ts, hts, rfl, -⟩ := List.map_eq_cons_iff.1 h
    rw [greatest, hts]
    rfl

theorem sums_lighterTier (m : Model) (price : Nat) : m.Sums (.lighterTier price) price :=
  ⟨trivial, rfl, rfl, fun _ => rfl⟩

end Model

namespace Formulation

variable {m : Model} {prices light : List Nat} {price heavy : Nat} {own others es sums : List Expr}

/-! ### Saying the lighter tiers -/

/-- What is said of several prices, each with the sum of its penalties. -/
structure TiersSaid (m : Model) (prices : List Nat) (es : List Expr) : Prop where
  /-- Where the variables are introduced, it is accepted. -/
  accepts : ∀ names, m.Introduced names → Expr.Accepts m.valuesOf names es
  /-- It declares the sums. -/
  declared : ∀ w ∈ prices, Names.lighterTier w ∈ Expr.declaredBy es
  /-- It declares names of the prices only. -/
  names : ∀ name ∈ Expr.declaredBy es, ∃ w ∈ prices, m.OfPrice w name
  /-- No sum is below the total violation. -/
  sound : ∀ value, Expr.AllHold value (m.vars.flatMap variableExprs) → Expr.AllHold value es →
    ∀ w ∈ prices, m.tierTotal value w ≤ value (Names.lighterTier w)
  /-- The extension of a feasible assignment satisfies it. -/
  complete : ∀ value, m.Feasible value → Expr.AllHold (m.extended value) es

theorem tiersSaid_nil (m : Model) : TiersSaid m [] [] :=
  ⟨fun _ _ => trivial, by simp, by simp [Expr.declaredBy], by simp, fun _ _ => trivial⟩

theorem TiersSaid.cons (hm : m.Formulable) (hown : TierExprs m (Names.lighterTier price) price own)
    (h : TiersSaid m prices others) : TiersSaid m (price :: prices) (own ++ others) := by
  have ha := m.sums_lighterTier price
  have haccepts := fun names (hintro : m.Introduced names) =>
    hown.accepts hm (.lighterTier price) trivial rfl hintro
  -- The later tiers are accepted after this one, with the names that it declares.
  refine ⟨fun names hintro => ?_, ?_, ?_, fun value hvars hall => ?_, fun value hfeasible => ?_⟩
  · refine Expr.accepts_append.2 ⟨(haccepts names hintro).1, h.accepts _ ?_⟩
    exact hintro.mono (List.subset_append_left _ _)
  · rw [Expr.declaredBy_append]
    refine List.forall_mem_cons.2 ⟨List.mem_append_left _ ?_, fun w hw => ?_⟩
    · exact (haccepts _ (Model.Formulable.introduced_variableExprs m)).2
    · exact List.mem_append_right _ (h.declared w hw)
  · rw [Expr.declaredBy_append]
    refine List.forall_mem_append.2 ⟨fun name hname => ⟨price, by simp, ?_⟩, fun name hname => ?_⟩
    · exact declaredBy_tierExprs hm ha hown name hname
    · obtain ⟨w, hw, hof⟩ := h.names name hname
      exact ⟨w, List.mem_cons_of_mem _ hw, hof⟩
  · obtain ⟨hfirst, hrest⟩ := Expr.allHold_append.1 hall
    exact List.forall_mem_cons.2 ⟨(hown.sound hm hvars hfirst).1, h.sound value hvars hrest⟩
  · exact Expr.allHold_append.2
      ⟨hown.allHold_extended hm hfeasible (ha.extended value), h.complete value hfeasible⟩

/-- The sum of a lighter tier as a part of the second objective. -/
def lighterPart (m : Model) (price : Nat) : Summand :=
  ⟨price, Names.lighterTier price, m.tierBound price⟩

theorem summed_lighterParts (value : String → Int) (m : Model) (light : List Nat) :
    summed value (light.map (lighterPart m)) =
      (light.map fun w : Nat => (w : Int) * value (Names.lighterTier w)).sum := by
  rw [summed, List.map_map]
  rfl

/-- What is said of the lighter tiers and of their weighted sum. -/
structure Lightened (m : Model) (light : List Nat) (es : List Expr) : Prop where
  /-- Where the variables are introduced, it is accepted. -/
  accepts : ∀ names, m.Introduced names → Expr.Accepts m.valuesOf names es
  /-- It declares the weighted sum. -/
  declared : Names.lighter ∈ Expr.declaredBy es
  /-- Beside the weighted sum it declares names of the prices only. -/
  names : ∀ name ∈ Expr.declaredBy es, name = Names.lighter ∨ ∃ w ∈ light, m.OfPrice w name
  /-- The weighted sum is not below the cost. -/
  sound : ∀ value, Expr.AllHold value (m.vars.flatMap variableExprs) → Expr.AllHold value es →
    m.lighterCost value ≤ value Names.lighter ∧ 0 ≤ value Names.lighter
  /-- The extension of a feasible assignment satisfies it. -/
  complete : ∀ value, m.Feasible value → Expr.AllHold (m.extended value) es

theorem extended_lighter (m : Model) (value : String → Int) :
    m.extended value Names.lighter = m.lighterCost value := Model.extended_name .lighter trivial

/-- The weighted sum of the lighter tiers in the extension of a feasible assignment. -/
theorem isSum_lighter_extended (hm : m.Formulable) (htiers : m.tiers.map (·.price) = heavy :: light)
    {value : String → Int} (hfeasible : m.Feasible value) :
    IsSum (m.extended value) Names.lighter (light.map (lighterPart m)) := by
  have hextended : ∀ w, m.extended value (Names.lighterTier w) = m.tierTotal value w :=
    fun w => (m.sums_lighterTier w).extended value
  refine Within.isSum (fun s hs => ?_) ?_
  · obtain ⟨w, -, rfl⟩ := List.mem_map.1 hs
    obtain ⟨-, hnonneg, hle⟩ := hm.isSum_total_extended hfeasible.inDomains (hextended w)
    rw [Model.Formulable.greatest_summands_penaltyFor] at hle
    exact ⟨Int.natCast_nonneg w, hnonneg, hle⟩
  · rw [extended_lighter, summed_lighterParts, Model.lighterCost_eq htiers]
    refine congrArg List.sum (List.map_congr_left fun w _ => ?_)
    rw [hextended]

theorem TiersSaid.lightened (hm : m.Formulable) (htiers : m.tiers.map (·.price) = heavy :: light)
    (h : TiersSaid m light es)
    (hsums : sumDefinition Names.lighter (light.map (lighterPart m)) = .ok sums) :
    Lightened m light (es ++ sums) := by
  have hparts : ∀ names, ∀ s ∈ light.map (lighterPart m), s.name ∈ names ++ Expr.declaredBy es := by
    intro names s hs
    obtain ⟨w, hw, rfl⟩ := List.mem_map.1 hs
    exact List.mem_append_right _ (h.declared w hw)
  -- The bound of the sum is the one that the model gives for the lighter tiers together.
  have hgreatest : greatest (light.map (lighterPart m)) = m.greatest .lighter := by
    rw [Model.greatest_lighter htiers, greatest, List.map_map]
    rfl
  have haccepts := fun names =>
    Model.Formulable.accepts_sumDefinition .lighter trivial hsums hgreatest (hparts names)
  have hdeclared := declaredBy_sumDefinition hsums
  refine ⟨fun names hintro => ?_, ?_, ?_, fun value hvars hall => ?_, fun value hfeasible => ?_⟩
  · exact Expr.accepts_append.2 ⟨h.accepts names hintro, (haccepts names).1⟩
  · rw [Expr.declaredBy_append, hdeclared]
    exact List.mem_append_right _ List.mem_cons_self
  · rw [Expr.declaredBy_append, hdeclared]
    refine List.forall_mem_append.2 ⟨fun name hname => .inr (h.names name hname), ?_⟩
    exact List.forall_mem_singleton.2 (.inl rfl)
  · obtain ⟨htier, hsum⟩ := Expr.allHold_append.1 hall
    obtain ⟨heq, hnonneg, -⟩ := (allHold_sumDefinition hsums).1 hsum
    refine ⟨?_, hnonneg⟩
    rw [heq, summed_lighterParts, Model.lighterCost_eq htiers]
    refine List.sum_le_sum fun w hw => ?_
    exact Int.mul_le_mul_of_nonneg_left (h.sound value hvars htier w hw) (Int.natCast_nonneg w)
  · refine Expr.allHold_append.2 ⟨h.complete value hfeasible, (allHold_sumDefinition hsums).2 ?_⟩
    exact isSum_lighter_extended hm htiers hfeasible

end Formulation

namespace Optimizer

variable {σ : Type} {b : Backend σ} {clauses : σ → List Clause} {m : Model} {o o' : Optimizer σ}
  {values : String → List Int} {names : List String} {exprs es : List Expr}
  {prices light : List Nat} {heavy : Nat} {fair : Optimizer σ → Prop}

open Formulation (Bounded Least TierExprs TiersSaid Lightened lighterPart)

theorem runs_addLighterTiers (hm : m.Formulable) (hnodup : o.Room → (prices ++ light).Nodup)
    (h : o.Room → o.model = m ∧ o.formulation = .ofTiers m prices) :
    Runs fair (addLighterTiers light) o fun parts o' => ∃ es, TiersSaid m light es ∧
      parts = light.map (lighterPart m) ∧ Admits es (.ofTiers m (prices ++ light)) o o' := by
  induction light generalizing o prices with
  | nil =>
    refine runs_pure fun hroom => ⟨[], Formulation.tiersSaid_nil m, rfl, ?_⟩
    rw [List.append_nil, Admits, ← (h hroom).2]
    simp [Session.addExprs]
  | cons price light ih =>
    have hfirst : o.Room → (prices ++ [price]).Nodup := by
      intro hroom
      have hall := hnodup hroom
      rw [List.append_cons] at hall
      exact (List.nodup_append.1 hall).1
    refine (runs_addTier hm hfirst h).bind fun ub o₁ hlater₁ h₁ => ?_
    have hnodup₁ : o₁.Room → (prices ++ [price] ++ light).Nodup := by
      intro hroom
      rw [← List.append_cons]
      exact hnodup (hlater₁.room hroom)
    refine (ih hnodup₁ fun hroom => ?_).bind
      fun parts o₂ hlater₂ h₂ => runs_pure fun hroom => ?_
    · obtain ⟨own, -, -, rfl⟩ := h₁ hroom
      exact ⟨(h (hlater₁.room hroom)).1, rfl⟩
    · obtain ⟨own, hown, rfl, hadmits₁⟩ := h₁ (hlater₂.room hroom)
      obtain ⟨others, hothers, rfl, hadmits₂⟩ := h₂ hroom
      refine ⟨own ++ others, hothers.cons hm hown, rfl, ?_⟩
      rw [hadmits₂, hadmits₁, Admits, Session.addExprs_addExprs, ← List.append_cons]

/-! ### Steps -/

/-- **A step** minimizes a value and keeps what it came to as a bound, or is without a solution. -/
theorem runs_minimizeStep (hb : b.Sound clauses) {name : String}
    (hclear : o.Room → Clear b clauses values names exprs o) (hname : o.Room → name ∈ names)
    (hnonneg : o.Room → ∀ value, Expr.AllHold value exprs → 0 ≤ value name) :
    Runs fair (minimizeStep b name) o fun more o' =>
      (more = false → Unsolved exprs o o') ∧
      (more = true → ∃ s o₁ d ks, Asked b clauses values names exprs [] none o (.sat s) o₁ ∧
        Improved b clauses values names exprs name .le o₁ d ks o') := by
  refine (runs_firstSolution hb hclear).bind fun r o₁ hlater₁ h₁ => ?_
  cases r with
  | none =>
    refine runs_pure fun hroom => ⟨fun _ => (h₁ hroom).2 rfl, fun hmore => ?_⟩
    cases hmore
  | some s =>
    have hdescending : o₁.Room → Descending clauses values names exprs name (s.value name)
        { o₁ with best := some s } := by
      intro hroom
      have hroom₀ := hlater₁.room hroom
      exact ((h₁ hroom).1 s rfl).descending (hname hroom₀) (hnonneg hroom₀)
    refine runs_improve (k := fun _ => pure true) hb Comparator.caps_le hdescending
      fun d o₂ hlater₂ h₂ => runs_pure fun hroom => ⟨fun hmore => (by cases hmore), fun _ => ?_⟩
    obtain ⟨ks, hks⟩ := h₂ hroom
    exact ⟨s, o₁, d, ks, (h₁ (hlater₂.room hroom)).1 s rfl, hks⟩

/-! ### The search -/

/-- What is known of a solution after the first step, or after both. -/
structure Stepped (m : Model) (secondStep : Bool) (s : Solution) (o : Optimizer σ) : Prop where
  /-- The model. -/
  model : o.model = m
  /-- Interruptions are noted. -/
  noted : o.Noted
  /-- The solution is the best one. -/
  best : o.best = some s
  /-- The solution can be shown. -/
  presentable : s.Presentable m
  /-- Without an interruption it has the least total of the highest price, and after the second step
  the least cost at lower prices. -/
  least : o.timedOut = false →
    m.HeaviestLeast s.value ∧ (secondStep = true → m.LighterLeast s.value)

/-- What a search in two steps, or in the first of them, comes to. -/
structure StepsSearched (m : Model) (secondStep : Bool) (o : Optimizer σ) : Prop extends
    Ended m 1 o where
  /-- The best solution has the least total of the highest price, and after the second step the
  least cost at lower prices. -/
  optimal : o.phase = .optimal → ∃ s, o.best = some s ∧ m.HeaviestLeast s.value ∧
    (secondStep = true → m.LighterLeast s.value)

theorem runs_finishSteps {secondStep : Bool} {s : Solution}
    (h : o.Room → Stepped m secondStep s o) :
    Runs fair (finishDescents b) o fun _ o' => StepsSearched m secondStep o' := by
  have hdone : o.Room → o.model = m ∧ o.Noted ∧ o.best = some s ∧ s.Presentable m := fun hroom =>
    ⟨(h hroom).model, (h hroom).noted, (h hroom).best, (h hroom).presentable⟩
  refine (runs_finishDescents 1 hdone).mono fun _ o' hlater hroom hend => ?_
  obtain ⟨hended, hsame, htime⟩ := hend
  exact ⟨hended, fun hopt => ⟨s, hsame, (h (hlater.room hroom)).least (htime hopt)⟩⟩

section SecondStep

variable {v : Int}

/-- Where the bound of the first step is the least total, every further solution has this total. -/
theorem heaviestLeast_of_bounded (htiers : m.tiers.map (·.price) = heavy :: light)
    (hbounded : Bounded m [(heavy, v)] exprs) (hleast : Least m [(heavy, v)]) {value : String → Int}
    (hall : Expr.AllHold value exprs) : m.heaviestTotal value = v ∧ m.HeaviestLeast value := by
  have hvalue : m.heaviestTotal value = v := by
    rw [Model.heaviestTotal_eq htiers]
    exact hbounded.totals_eq hleast hall _ List.mem_cons_self
  refine ⟨hvalue, fun other hother => ?_⟩
  have hle : [v] ≤ [m.tierTotal other heavy] := hleast other hother
  rw [hvalue, Model.heaviestTotal_eq htiers]
  rcases Formulation.cons_le_cons_iff.1 hle with hlt | ⟨heq, -⟩
  · exact Int.le_of_lt hlt
  · exact Int.le_of_eq heq

theorem Tiered.stepped (htiers : m.tiers.map (·.price) = heavy :: light)
    (h : Tiered b clauses m prices [(heavy, v)] exprs o) {s : Solution} (hs : o.best = some s)
    (hright : Outcome.RightFor exprs [] (.sat s)) : Stepped m false s o := by
  refine ⟨h.model, h.noted, hs, h.presentable s hs, fun htime => ⟨?_, fun hsecond => ?_⟩⟩
  · exact (heaviestLeast_of_bounded htiers h.bounded (h.least htime) hright.2.1).2
  · cases hsecond

/-- The solution of the first step extends to the lighter tiers, whatever its bound is. -/
theorem Tiered.satisfiable_lighter (hm : m.Formulable) {fixed : List (Nat × Int)}
    (h : Tiered b clauses m [heavy] fixed exprs o) (hbest : HasBest exprs o)
    (hnodup : (heavy :: light).Nodup) (hes : Lightened m light es) :
    ∃ value, Expr.AllHold value (exprs ++ es) := by
  obtain ⟨s, -, hright⟩ := hbest
  obtain ⟨hfeasible, hvars⟩ := h.bounded.feasible _ hright.2.1
  refine h.speaks.exists_allHold_append hm hvars hright.2.1 ?_ (fun name hname => ?_)
    (hes.complete _ hfeasible)
  · exact hes.accepts _ (Model.Formulable.introduced_variableExprs m)
  · -- The weighted sum belongs to no price, and the other names to lighter ones.
    rcases hes.names name hname with rfl | ⟨w, hw, hof⟩
    · exact h.speaks.notMem hm (a := .lighter) trivial (fun _ _ heq => by cases heq)
        fun _ _ heq => by cases heq
    · refine h.speaks.notMem_of_ofPrice hm (fun hmem => ?_) hof
      rw [List.mem_singleton.1 hmem] at hw
      exact (List.nodup_cons.1 hnodup).1 hw

/-- The second step keeps the least total of the highest price, and its end is the least cost. -/
theorem Tiered.stepped_twice (htiers : m.tiers.map (·.price) = heavy :: light)
    (h : Tiered b clauses m [heavy] [(heavy, v)] exprs o) (hes : Lightened m light es)
    {o₁ o₂ o₃ : Optimizer σ} {f : Formulation} (hadmits : Admits es f o o₁) {s : Solution}
    (hasked : Asked b clauses values names (exprs ++ es) [] none o₁ (.sat s) o₂) {d : Descent}
    {ks : List Int}
    (himproved : Improved b clauses values names (exprs ++ es) Names.lighter .le o₂ d ks o₃) :
    ∃ t, Stepped m true t o₃ := by
  obtain rfl := hadmits
  obtain ⟨t, hbest, hright⟩ := himproved.solution
  obtain ⟨hsaid, hcapped⟩ := Expr.allHold_append.1 hright.2.1
  obtain ⟨hold, hnew⟩ := Expr.allHold_append.1 hsaid
  have hanswered := hasked.answered (fun hun => by cases hun) (Nat.le_refl 1)
  have hframe := hanswered.frame
  obtain ⟨hfeasible, hvars⟩ := h.bounded.feasible _ hold
  refine ⟨t, ?_, himproved.noted (hanswered.noted (by simp) h.noted), hbest, ?_, fun htime => ?_⟩
  · rw [himproved.kept.1, hframe]
    exact h.model
  · exact presentable_of_bounded h.bounded h.speaks hright.of_append.of_append
  · rw [himproved.timedOut, Bool.or_eq_false_iff, hframe] at htime
    have hleast : Least m [(heavy, v)] := h.least htime.1
    obtain ⟨hvalue, hheaviest⟩ := heaviestLeast_of_bounded htiers h.bounded hleast hold
    refine ⟨hheaviest, fun _ other hother hsame => ?_⟩
    -- The extension of the other assignment satisfies all that was said before the descent.
    have hfixed : m.tierTotal other heavy = v := by
      rw [← Model.heaviestTotal_eq htiers, hsame, hvalue]
    have hall : Expr.AllHold (m.extended other) (exprs ++ es) := by
      refine Expr.allHold_append.2 ⟨h.bounded.complete other hother ?_, hes.complete other hother⟩
      exact List.forall_mem_singleton.2 hfixed
    calc m.lighterCost t.value ≤ t.value Names.lighter := (hes.sound _ hvars hnew).1
      _ ≤ d.value := Expr.le_of_capped Comparator.caps_le hcapped
      _ ≤ m.extended other Names.lighter := himproved.least htime.2 _ hall
      _ = m.lighterCost other := Formulation.extended_lighter m other

/-- Without a solution of the first step the search is at an end. -/
theorem Prepared.searched_of_unsolved (hm : m.Formulable) {f : Formulation} {phase : Phase}
    (h : Prepared clauses m f (Formulation.sayings m m.hardConstraints) phase o) {a : Names.Aux}
    (ha : m.Sums a heavy) (hes : TierExprs m a.name heavy es) {g : Formulation}
    {o₁ o₂ : Optimizer σ} (hadmits : Admits es g o o₁)
    (hun : Unsolved (Formulation.sayings m m.hardConstraints ++ es) o₁ o₂) {secondStep : Bool} :
    StepsSearched m secondStep o₂ := by
  have hhard := Formulation.bounded_hard hm
  have haccepts :=
    (hes.accepts hm a ha.valid ha.greatest (Formulation.speaks_hard hm).introduced).1
  have hended := ended_of_unsolved (h.admits haccepts hadmits) hun fun value hfeasible =>
    Expr.allHold_append.2 ⟨hhard.complete value hfeasible (by simp),
      hes.allHold_extended hm hfeasible (ha.extended value)⟩
  refine ⟨hended, fun hopt => ?_⟩
  rcases hun.reason with ⟨hphase, -⟩ | ⟨hphase, -⟩
  · cases hphase.symm.trans hopt
  · cases hphase.symm.trans hopt

/-- An interruption at the start of the second step leaves the solution of the first. -/
theorem Tiered.searched_of_unsolved (h : Tiered b clauses m prices [(heavy, v)] exprs o)
    (hbest : HasBest exprs o) {o₁ o₂ : Optimizer σ} {f : Formulation} (hadmits : Admits es f o o₁)
    (hsat : ∃ value, Expr.AllHold value (exprs ++ es)) (hun : Unsolved (exprs ++ es) o₁ o₂) :
    StepsSearched m true o₂ := by
  obtain rfl := hadmits
  obtain ⟨hmodel, hsame⟩ := hun.kept
  obtain ⟨s, hs, -⟩ := hbest
  rcases hun.reason with ⟨-, hrefused, -⟩ | ⟨hphase, hquestions⟩
  · -- A refusal is out of the question, so there was an interruption.
    exact absurd hsat hrefused
  · have hnot : ¬o₂.Uninterrupted :=
      fun hall => hall ⟨none, .interrupted⟩ (by simp [hquestions]) rfl
    refine ⟨⟨hmodel.trans h.model, fun hall => absurd hall hnot, fun _ => hphase, fun hopt => ?_,
      fun hinf => ?_, fun hnone => ?_, fun t ht => h.presentable t (hsame.symm.trans ht)⟩,
      fun hopt => ?_⟩
    · cases hphase.symm.trans hopt
    · cases hphase.symm.trans hinf
    · cases hs.symm.trans (hsame.symm.trans hnone)
    · cases hphase.symm.trans hopt

end SecondStep

/-- **The second step.** -/
theorem runs_searchLighter (hb : b.Sound clauses) (hm : m.Formulable) {v : Int}
    (htiers : o.Room → m.tiers.map (·.price) = heavy :: light)
    (h : o.Room → Tiered b clauses m [heavy] [(heavy, v)] exprs o)
    (hbest : o.Room → HasBest exprs o) :
    Runs fair (searchLighter b light) o fun more o' =>
      (more = false → StepsSearched m true o') ∧ (more = true → ∃ s, Stepped m true s o') := by
  have hnodup : o.Room → ([heavy] ++ light).Nodup := by
    intro hroom
    show (heavy :: light).Nodup
    rw [← htiers hroom]
    exact m.nodup_tiers
  refine (runs_addLighterTiers hm hnodup fun hroom =>
    ⟨(h hroom).model, (h hroom).formulation⟩).bind fun parts o₁ hlater₁ h₁ => ?_
  refine runs_checked_bind (Formulation.tame_sumDefinition _ _) fun sums hsums =>
    runs_queue_bind ?_
  -- What was said of the tiers and of their sum is queued in two parts, and is one saying.
  let o₂ : Optimizer σ := { o₁ with session := o₁.session.addExprs sums }
  have hsaid : o₂.Room → ∃ es, Lightened m light es ∧
      Admits es (.ofTiers m ([heavy] ++ light)) o o₂ := by
    intro hroom
    obtain ⟨es, hes, rfl, hadmits⟩ := h₁ hroom
    refine ⟨es ++ sums, hes.lightened hm (htiers (hlater₁.room hroom)) hsums, ?_⟩
    show Admits _ _ o { o₁ with session := o₁.session.addExprs sums }
    rw [hadmits, Admits, Session.addExprs_addExprs]
  obtain ⟨es, hes⟩ := exists_of_imp hsaid
  have hclear : o₂.Room → Clear b clauses m.valuesOf (Expr.declaredBy exprs ++ Expr.declaredBy es)
      (exprs ++ es) o₂ := by
    intro hroom
    have htiered := h (hlater₁.room hroom)
    rw [(hes hroom).2]
    exact htiered.clear.addExprs ((hes hroom).1.accepts _ htiered.speaks.introduced)
  have hnonneg : o₂.Room → ∀ value, Expr.AllHold value (exprs ++ es) → 0 ≤ value Names.lighter := by
    intro hroom value hall
    obtain ⟨hold, hnew⟩ := Expr.allHold_append.1 hall
    have hvars := ((h (hlater₁.room hroom)).bounded.feasible value hold).2
    exact ((hes hroom).1.sound value hvars hnew).2
  refine (runs_minimizeStep hb hclear (fun hroom => List.mem_append_right _ (hes hroom).1.declared)
    hnonneg).mono fun more o₃ hlater₃ hroom h₃ => ?_
  have hroom₁ := hlater₃.room hroom
  have hroom₀ := hlater₁.room hroom₁
  obtain ⟨hlight, hadmits⟩ := hes hroom₁
  refine ⟨fun hmore => ?_, fun hmore => ?_⟩
  · have hsat := (h hroom₀).satisfiable_lighter hm (hbest hroom₀) (hnodup hroom₀) hlight
    exact (h hroom₀).searched_of_unsolved (hbest hroom₀) hadmits hsat (h₃.1 hmore)
  · obtain ⟨s, o₄, d, ks, hasked, himproved⟩ := h₃.2 hmore
    exact (h hroom₀).stepped_twice (htiers hroom₀) hlight hadmits hasked himproved

/-- **The first step.** What it comes to is fixed from then on, least or not. -/
theorem runs_firstStep (hb : b.Sound clauses) (hm : m.Formulable) {phase : Phase}
    (htiers : o.Room → m.tiers.map (·.price) = heavy :: light)
    (h : o.Room → Prepared clauses m ⟨m.vars, m.hardConstraints, []⟩
      (Formulation.sayings m m.hardConstraints) phase o)
    {k : Bool → Action σ Unit} {post : Unit → Optimizer σ → Prop}
    (hk : ∀ more o', Later o o' → (o'.Room →
      (more = false → ∀ secondStep, StepsSearched m secondStep o') ∧
      (more = true → ∃ p : Int × List Expr,
        Tiered b clauses m [heavy] [(heavy, p.1)] p.2 o' ∧ HasBest p.2 o')) →
      Runs fair (k more) o' post) :
    Runs fair (do
      let _ ← addTier Names.heaviest heavy
      let more ← minimizeStep b Names.heaviest
      k more) o post := by
  have hnodup : o.Room → (([] : List Nat) ++ [heavy]).Nodup := fun _ => List.nodup_singleton heavy
  have hstart : o.Room → Tiered b clauses m [] [] (Formulation.sayings m m.hardConstraints) o :=
    fun hroom => tiered_of_prepared hm (h hroom)
  refine (runs_addTier hm hnodup fun hroom =>
    ⟨(hstart hroom).model, (hstart hroom).formulation⟩).bind fun _ o₁ hlater₁ h₁ => ?_
  obtain ⟨es, hes⟩ := exists_of_imp h₁
  have ha := fun hroom : o₁.Room => Model.sums_heaviest (htiers (hlater₁.room hroom))
  have htier := fun hroom : o₁.Room =>
    (hstart (hlater₁.room hroom)).addTier hm (ha hroom) (hes hroom).1 (hes hroom).2.2
  have htotal := fun (hroom : o₁.Room) value
      (hall : Expr.AllHold value (Formulation.sayings m m.hardConstraints ++ es)) =>
    (Formulation.bounded_hard hm).total_le hm (hes hroom).1 hall
  refine (runs_minimizeStep hb (fun hroom => (htier hroom).1.clear) (fun hroom => (htier hroom).2)
    fun hroom value hall => (htotal hroom value hall).2).bind fun more o₂ hlater₂ h₂ => ?_
  refine hk more o₂ (hlater₁.trans hlater₂) fun hroom => ⟨?_, ?_⟩
  · -- Nothing was found: the search ends with the verdict on its first question.
    rintro rfl secondStep
    have hroom₁ := hlater₂.room hroom
    exact (h (hlater₁.room hroom₁)).searched_of_unsolved hm (ha hroom₁) (hes hroom₁).1
      (hes hroom₁).2.2 ((h₂ hroom).1 rfl)
  · rintro rfl
    have hroom₁ := hlater₂.room hroom
    obtain ⟨s, o', d, ks, hasked, himproved⟩ := (h₂ hroom).2 rfl
    have hanswered := hasked.answered (fun hun => by cases hun) (Nat.le_refl 1)
    exact ⟨(d.value, _), (htier hroom₁).1.improved Comparator.caps_le (ha hroom₁)
      (fun value hall => (htotal hroom₁ value hall).1) (htier hroom₁).2 hanswered himproved⟩

/-- **The search.** -/
theorem runs_searchTwoStep (hb : b.Sound clauses) (hm : m.Formulable) (secondStep : Bool)
    (h : o.Room → Prepared clauses m ⟨m.vars, m.hardConstraints, []⟩
      (Formulation.sayings m m.hardConstraints) .encoded o) :
    Runs fair (searchTwoStep b secondStep) o fun _ o' => StepsSearched m secondStep o' := by
  refine (runs_beginSearch h).bind fun _ o₁ _ h₁ => runs_get_bind ?_
  cases hprices : o₁.model.tiers.map (·.price) with
  | nil =>
    refine (runs_anySolution_hard hb hm h₁).mono fun _ o' hlater hroom hended => ?_
    refine ⟨hended, fun hopt => ?_⟩
    obtain ⟨s, hs⟩ := Option.ne_none_iff_exists'.1 (hended.found hopt)
    -- Where nothing is soft every assignment has the least totals.
    rw [(h₁ (hlater.room hroom)).model, List.map_eq_nil_iff] at hprices
    have hleast := Model.least_of_no_tiers hprices s.value
    exact ⟨s, hs, hleast.1, fun _ => hleast.2⟩
  | cons heavy light =>
    have htiers : o₁.Room → m.tiers.map (·.price) = heavy :: light := by
      intro hroom
      rw [← (h₁ hroom).model, hprices]
    refine runs_firstStep hb hm htiers h₁ fun more o₂ hlater₂ h₂ => ?_
    cases more with
    | false => exact runs_pure fun hroom => (h₂ hroom).1 rfl secondStep
    | true =>
      obtain ⟨⟨v, exprs⟩, hfirst⟩ := exists_of_imp fun hroom => (h₂ hroom).2 rfl
      have htiers₂ := fun hroom : o₂.Room => htiers (hlater₂.room hroom)
      cases secondStep with
      | false =>
        obtain ⟨s, hs⟩ := exists_of_imp fun hroom => (hfirst hroom).2
        exact runs_finishSteps fun hroom =>
          (hfirst hroom).1.stepped (htiers₂ hroom) (hs hroom).1 (hs hroom).2
      | true =>
        refine (runs_searchLighter hb hm htiers₂ (fun hroom => (hfirst hroom).1) fun hroom =>
          (hfirst hroom).2).bind fun more o₃ _ h₃ => ?_
        cases more with
        | false => exact runs_pure fun hroom => (h₃ hroom).1 rfl
        | true =>
          obtain ⟨s, hs⟩ := exists_of_imp fun hroom => (h₃ hroom).2 rfl
          exact runs_finishSteps hs

end Optimizer

namespace Strategy

open Optimizer

variable {σ : Type} {b : Backend σ} {clauses : σ → List Clause} {m : Model} {o : Optimizer σ}
  {fair : Optimizer σ → Prop}

/-- The strategy of two steps, or of the first of them. -/
def ofSteps (secondStep : Bool) : Strategy := if secondStep then .twoStep else .firstStep

theorem runs_steps (hb : b.Sound clauses) (hm : m.Formulable)
    (h : Prepared clauses m .empty [] .start o) (run : LocalSearch.Runner) (secondStep : Bool) :
    Runs fair (complete b run (ofSteps secondStep)) o fun r o' =>
      StepsSearched m secondStep o' ∧ o'.report b (ofSteps secondStep).name = .ok r := by
  -- The two variants differ by the flag alone.
  have hsearch : (ofSteps secondStep).formulate b = formulateHard b ∧
      (ofSteps secondStep).search b run = searchTwoStep b secondStep := by
    cases secondStep
    · exact ⟨rfl, rfl⟩
    · exact ⟨rfl, rfl⟩
  unfold complete
  rw [hsearch.1, hsearch.2]
  refine (runs_formulateHard hm h).bind fun _ o₁ _ h₁ => ?_
  refine (runs_encode hb h₁).bind fun _ o₂ _ h₂ => ?_
  refine (runs_searchTwoStep hb hm secondStep h₂).bind fun _ o₃ _ h₃ => runs_get_bind ?_
  exact runs_checked (tame_report b _ _) fun r hr hroom => ⟨h₃ hroom, hr⟩

/-- What a report on a search in two steps, or in the first of them, says. -/
structure Stepwise (m : Model) (secondStep : Bool) (r : Report) (o : Optimizer σ) : Prop where
  /-- The assignment is feasible, no other has a smaller total of the highest price, and after the
  second step none with this total costs less at lower prices. -/
  optimal : r.status = .optimal → ∃ value, m.Feasible value ∧
    r.assignment = m.vars.map (fun x => (x.name, value x.name)) ∧ r.hardViolations = 0 ∧
    r.tiers = m.tiers.map (fun t => (t.price, m.tierTotal value t.price)) ∧
    m.HeaviestLeast value ∧ (secondStep = true → m.LighterLeast value)
  /-- Without an interruption there is a verdict, and nothing is refused that is feasible. -/
  decided : o.Uninterrupted → (r.status = .optimal ∨ r.status = .infeasible) ∧
    (r.status = .infeasible ↔ ¬∃ value, m.Feasible value)

theorem stepwise_of_searched (hm : m.Formulable) {secondStep : Bool}
    (h : StepsSearched m secondStep o) {name : String} {r : Report}
    (hr : o.report b name = .ok r) : Stepwise m secondStep r o := by
  refine ⟨fun hopt => ?_, h.decided_report hr⟩
  obtain ⟨s, hs, hleast⟩ := h.optimal ((Report.new_status hr).1 ▸ hopt)
  obtain ⟨hassignment, hhard, htiers⟩ := h.report_best hm.toWellFormed hr hs
  exact ⟨s.value, (h.presentable s hs).feasible, hassignment, hhard, htiers, hleast⟩

/-- **Two steps are exact.** An optimal report on both steps shows the least total of the highest
price and, among the assignments with this total, the least cost at lower prices; one on the first
step alone shows the least total of the highest price and violates no hard constraint. -/
theorem steps_exact (hb : b.Sound clauses) {s₀ : σ} (h₀ : clauses s₀ = []) (hm : m.Built)
    (hnames : ∀ x ∈ m.vars, Names.isReserved x.name = false) {options : MethodOptions}
    (hnew : Optimizer.new b s₀ m options = .ok o) (run : LocalSearch.Runner) :
    Ends (complete b run .twoStep o) (Stepwise m true) ∧
      Ends (complete b run .firstStep o) (Stepwise m false) := by
  obtain ⟨hprepared, hsupported⟩ := prepared_new hb h₀ hnew
  have hform := Model.formulable_of_built hm hnames hsupported
  have hends : ∀ secondStep,
      Ends (complete b run (ofSteps secondStep) o) (Stepwise m secondStep) := by
    intro secondStep
    refine (runs_steps hb hform hprepared run secondStep).ends fun r o' h => ?_
    exact stepwise_of_searched hform h.1 h.2
  exact ⟨hends true, hends false⟩

/-- Two constraints that contradict each other: the one of the higher price is kept, and the other
is paid for. -/
theorem steps_exact_torn : ∃ r o',
    complete .reference (fun _ => .killed) .twoStep tornStart = .ok r o' ∧ o'.Room ∧
      o'.Uninterrupted ∧ r.status = .optimal ∧ r.tiers = [(2, 0), (1, 1)] ∧
      ∃ value, Model.Sample.torn.Feasible value ∧ Model.Sample.torn.HeaviestLeast value ∧
        Model.Sample.torn.LighterLeast value ∧ Model.Sample.torn.heaviestTotal value = 0 ∧
        Model.Sample.torn.lighterCost value = 1 := by
  have hrun : digest (complete .reference (fun _ => .killed) .twoStep tornStart) =
      some ⟨.optimal, some 1, [(2, 0), (1, 1)], 4, 21, true⟩ := by cbv
  obtain ⟨r, o', heq, hroom, hdigest⟩ := exists_run_of_digest hrun (by decide)
  have hexact := (steps_exact Backend.reference_sound rfl Model.Sample.built_torn (by decide)
    (show Optimizer.new .reference [] Model.Sample.torn {} = .ok tornStart from rfl)
    fun _ => .killed).1
  rw [heq] at hexact
  have hstatus : r.status = .optimal := congrArg Digest.status hdigest
  have htiers : r.tiers = [(2, 0), (1, 1)] := congrArg Digest.tiers hdigest
  obtain ⟨value, hfeasible, -, -, htotals, hheaviest, hlighter⟩ := (hexact hroom).optimal hstatus
  -- The totals of the report are those of the assignment, price by price.
  have hprices : Model.Sample.torn.tiers.map (·.price) = [2, 1] := by decide
  have hboth : Model.Sample.torn.tierTotal value 2 = 0 ∧
      Model.Sample.torn.tierTotal value 1 = 1 := by
    have hmap : [2, 1].map (fun w => (w, Model.Sample.torn.tierTotal value w)) =
        [(2, 0), (1, 1)] := by
      rw [← hprices, List.map_map, ← htiers, htotals]
      rfl
    simpa using hmap
  refine ⟨r, o', heq, hroom, uninterrupted_of_answered (congrArg Digest.answered hdigest), hstatus,
    htiers, value, hfeasible, hheaviest, hlighter rfl, ?_, ?_⟩
  · rw [Model.heaviestTotal_eq hprices, hboth.1]
  · rw [Model.lighterCost_eq hprices]
    simp [hboth.2]

end Strategy

end WeightedCsp

import WeightedCsp.Proofs.Csp.Bounds
import WeightedCsp.Proofs.Formulation.Declarations

/-!
# Tiers one after the other

The soft constraints of one price are formulated together with a name for the sum of their
penalties.  The sum is never below the total violation, and for the extension of a feasible
assignment it is equal to it.  `Bounded` is the invariant of fixing one sum after the other: what is
said allows only feasible values whose totals do not exceed the fixed ones, it allows the extension
of every feasible assignment whose totals are the fixed ones, and the fixed totals are the least
ones, compared price by price from the front.
-/

namespace WeightedCsp

namespace Formulation

variable {m : Model} {value : String → Int} {prices : List Nat} {price : Nat} {name : String}

/-! ### Formulating a tier -/

/-- What is left when the constraints that have to hold and those of some prices are formulated. -/
def ofTiers (m : Model) (prices : List Nat) : Formulation :=
  ⟨m.vars, m.hardConstraints ++ prices.flatMap m.ofPrice, (prices.flatMap m.ofPrice).map penaltyFor⟩

/-- The constraints of some prices are constraints of the model. -/
theorem mem_flatMap_ofPrice {c : Constraint} (hc : c ∈ prices.flatMap m.ofPrice) :
    c ∈ m.constraints ∧ ∃ w ∈ prices, c.weight = .soft w := by
  obtain ⟨w, hw, hmem⟩ := List.mem_flatMap.1 hc
  obtain ⟨hcons, hweight⟩ := Model.mem_ofPrice.1 hmem
  exact ⟨hcons, w, hw, hweight⟩

/-- No two constraints of a formulation by tiers share a name. -/
theorem nodup_constraints_ofTiers (hm : m.WellFormed) (hprices : prices.Nodup) :
    ((ofTiers m prices).constraints.map (·.name)).Nodup := by
  have hnodup : m.constraints.Nodup := hm.constraintsNodup.of_map _
  have hmem : ∀ c ∈ m.hardConstraints ++ prices.flatMap m.ofPrice, c ∈ m.constraints := by
    intro c hc
    rcases List.mem_append.1 hc with hc | hc
    · exact (Model.mem_hardConstraints.1 hc).1
    · exact (mem_flatMap_ofPrice hc).1
  refine List.Nodup.map_on (fun c hc d hd heq => ?_) ?_
  · exact List.inj_on_of_nodup_map hm.constraintsNodup (hmem c hc) (hmem d hd) heq
  refine List.nodup_append.2
    ⟨hnodup.filter _, List.nodup_flatMap.2 ⟨fun w _ => hnodup.filter _, ?_⟩, ?_⟩
  · -- A constraint has one weight, so it is in one tier only.
    refine hprices.imp fun {w v} hne c hc hc' => ?_
    have hw := (Model.mem_ofPrice.1 hc).2
    rw [(Model.mem_ofPrice.1 hc').2] at hw
    cases hw
    exact hne rfl
  · rintro c hc d hd rfl
    obtain ⟨-, w, -, hw⟩ := mem_flatMap_ofPrice hd
    rw [(Model.mem_hardConstraints.1 hc).2] at hw
    cases hw

/-- The constraints of one more tier are formulated. -/
theorem addConstraints_tier (hm : m.Formulable) (hprices : (prices ++ [price]).Nodup) :
    addConstraints (m.ofPrice price) (ofTiers m prices) =
      .ok ((m.ofPrice price).flatMap constraintExprs) (ofTiers m (prices ++ [price])) := by
  have hmem : ∀ c ∈ m.ofPrice price, c ∈ m.constraints := fun c hc => (Model.mem_ofPrice.1 hc).1
  have hsoft : (m.ofPrice price).filter (·.isSoft) = m.ofPrice price := by
    refine List.filter_eq_self.2 fun c hc => ?_
    rw [Constraint.isSoft, (Model.mem_ofPrice.1 hc).2]
    rfl
  have hall : (ofTiers m prices).constraints ++ m.ofPrice price =
      (ofTiers m (prices ++ [price])).constraints := by
    simp [ofTiers]
  have hnodup := nodup_constraints_ofTiers hm.toWellFormed hprices
  rw [← hall] at hnodup
  rw [addConstraints_eq hnodup hm.varsNodup (fun c hc => hm.declared c (hmem c hc))
    fun c hc => hm.supported c (hmem c hc), hall, filterMap_penaltyOf? fun c hc =>
    hm.supported c (hmem c hc), hsoft]
  simp [ofTiers]

/-- The penalty of a constraint is found once its tier is formulated. -/
theorem penalty_ofTiers (hm : m.WellFormed) (hprices : prices.Nodup) {c : Constraint}
    (hc : c ∈ prices.flatMap m.ofPrice) :
    (ofTiers m prices).penalty c.name = .ok (penaltyFor c) := by
  have hnodup : (((prices.flatMap m.ofPrice).map penaltyFor).map (·.constraint)).Nodup := by
    rw [List.map_map]
    have hall := nodup_constraints_ofTiers hm hprices
    rw [ofTiers, List.map_append] at hall
    exact (List.nodup_append.1 hall).2.1
  have hfind := find?_key hnodup (List.mem_map_of_mem hc)
  unfold penalty ofTiers
  rw [show ((prices.flatMap m.ofPrice).map penaltyFor).find? (·.constraint = c.name) =
    some (penaltyFor c) from hfind]

/-- What is said of the soft constraints of a price and of the sum of their penalties. -/
def TierExprs (m : Model) (name : String) (price : Nat) (es : List Expr) : Prop :=
  ∃ sums, sumDefinition name (summands ((m.ofPrice price).map penaltyFor)) = .ok sums ∧
    es = (m.ofPrice price).flatMap constraintExprs ++ sums

/-- The declaration of the sum of the penalties of constraints, with its greatest value. -/
def sumOf (name : String) (cs : List Constraint) : Checked (List Expr × Int) := do
  let ub ← Word.sum ((cs.map penaltyFor).map (·.bound))
  let exprs ← sumDefinition name (summands (cs.map penaltyFor))
  return (exprs, ub)

/-- The sum of penalties that are there is declared, unless machine arithmetic gives out. -/
theorem aggregate_eq {f : Formulation} {cs : List Constraint}
    (h : ∀ c ∈ cs, f.penalty c.name = .ok (penaltyFor c)) :
    f.aggregate name cs = match sumOf name cs with
      | .ok r => .ok r
      | .error t => .error (.fault t) := by
  unfold aggregate sumOf
  rw [Checked.mapM_eq_ok h]
  show (do
    let ub ← (Word.sum ((cs.map penaltyFor).map (·.bound)) : Checked Int)
    let exprs ← (sumDefinition name (summands (cs.map penaltyFor)) : Checked (List Expr))
    return (exprs, ub) : Except (Failure FormulationError) (List Expr × Int)) = _
  cases Word.sum ((cs.map penaltyFor).map (·.bound)) with
  | error t => rfl
  | ok ub => cases sumDefinition name (summands (cs.map penaltyFor)) <;> rfl

/-- The bound of a tier is the sum of the bounds of its penalties. -/
theorem sumOf_eq_ok {cs : List Constraint} {es : List Expr} {ub : Int}
    (h : sumOf name cs = .ok (es, ub)) :
    sumDefinition name (summands (cs.map penaltyFor)) = .ok es ∧
      ub = (cs.map (·.penaltyBound)).sum := by
  obtain ⟨ub', hub, h₁⟩ := Checked.bind_eq_ok.1 h
  obtain ⟨exprs, hexprs, h₂⟩ := Checked.bind_eq_ok.1 h₁
  cases h₂
  refine ⟨hexprs, ?_⟩
  rw [word_sum_eq_ok hub, List.map_map]
  rfl

namespace TierExprs

variable {es : List Expr}

/-- The sum of the penalties is never below the total violation. -/
theorem sound (hm : m.Formulable) (h : TierExprs m name price es)
    (hvars : Expr.AllHold value (m.vars.flatMap variableExprs)) (hall : Expr.AllHold value es) :
    m.tierTotal value price ≤ value name ∧ 0 ≤ value name := by
  obtain ⟨sums, hsums, rfl⟩ := h
  obtain ⟨hmembers, hsum⟩ := Expr.allHold_append.1 hall
  obtain ⟨heq, hnonneg, -⟩ := (allHold_sumDefinition hsums).1 hsum
  refine ⟨?_, hnonneg⟩
  have hmem : ∀ c ∈ m.ofPrice price, c ∈ m.constraints := fun c hc => (Model.mem_ofPrice.1 hc).1
  have hpenalty := (hm.sound hmem hvars hmembers).2.2
  rw [heq, summed_summands, List.map_map]
  refine List.sum_le_sum fun c hc => hpenalty c hc ?_
  rw [Constraint.isSoft, (Model.mem_ofPrice.1 hc).2]
  rfl

/-- The extended assignment satisfies the expressions of a tier. -/
theorem allHold_extended (hm : m.Formulable) (h : TierExprs m name price es)
    (hfeasible : m.Feasible value) (hname : m.extended value name = m.tierTotal value price) :
    Expr.AllHold (m.extended value) es := by
  obtain ⟨sums, hsums, rfl⟩ := h
  refine Expr.allHold_append.2 ⟨?_, ?_⟩
  · rw [Expr.allHold_iff, List.forall_mem_flatMap]
    intro c hc
    exact Expr.allHold_iff.1 (hm.allHold_extended hfeasible (Model.mem_ofPrice.1 hc).1)
  · exact (allHold_sumDefinition hsums).2 (hm.isSum_total_extended hfeasible.inDomains hname)

/-- The expressions of a tier are accepted. -/
theorem accepts (hm : m.Formulable) (a : Names.Aux) (ha : a.Valid)
    (hgreatest : m.greatest a = m.tierBound price) (h : TierExprs m a.name price es)
    {names : List String} (hintro : m.Introduced names) :
    Expr.Accepts m.valuesOf names es ∧ a.name ∈ Expr.declaredBy es := by
  obtain ⟨sums, hsums, rfl⟩ := h
  have hparts : ∀ s ∈ summands ((m.ofPrice price).map penaltyFor),
      s.name ∈ names ++ Expr.declaredBy ((m.ofPrice price).flatMap constraintExprs) := by
    intro s hs
    rw [summands, List.map_map] at hs
    obtain ⟨c, hc, rfl⟩ := List.mem_map.1 hs
    obtain ⟨hmem, hweight⟩ := Model.mem_ofPrice.1 hc
    have hsoft : c ∈ m.softConstraints := Model.mem_softConstraints.2 ⟨hmem, price, hweight⟩
    obtain ⟨e, he, hdecl⟩ := Expr.mem_declaredBy.1 (hm.penalty_mem_declaredBy hsoft)
    refine List.mem_append_right _ (Expr.mem_declaredBy.2 ⟨e, ?_, hdecl⟩)
    exact List.mem_flatMap.2 ⟨c, hc, he⟩
  have hbound : Formulation.greatest (summands ((m.ofPrice price).map penaltyFor)) =
      m.greatest a := by
    rw [Model.Formulable.greatest_summands_penaltyFor, hgreatest]
    rfl
  obtain ⟨haccepts, hdeclared⟩ :=
    Model.Formulable.accepts_sumDefinition a ha hsums hbound hparts
  rw [Expr.accepts_append, Expr.declaredBy_append]
  refine ⟨⟨Expr.accepts_flatMap fun c hc => ?_, haccepts⟩, List.mem_append_right _ hdeclared⟩
  exact hm.accepts_constraintExprs hintro (Model.mem_ofPrice.1 hc).1

end TierExprs

/-! ### Fixing tiers -/

/-- The first entries decide, and the others where these agree. -/
theorem cons_le_cons_iff {a b : Int} {as bs : List Int} :
    a :: as ≤ b :: bs ↔ a < b ∨ a = b ∧ as ≤ bs := by
  constructor
  · intro h
    rcases h.lt_or_eq with hlt | heq
    · cases hlt with
      | rel hab => exact .inl hab
      | cons hlex => exact .inr ⟨rfl, le_of_lt hlex⟩
    · cases heq
      exact .inr ⟨rfl, le_rfl⟩
  · rintro (hab | ⟨rfl, hle⟩)
    · exact le_of_lt (List.Lex.rel hab)
    · exact List.cons_le_cons a hle

/-- Later entries matter only between lists that agree so far. -/
theorem append_le_append {xs ys : List Int} (hlength : xs.length = ys.length) (h : xs ≤ ys)
    {x y : Int} (hlast : xs = ys → x ≤ y) : xs ++ [x] ≤ ys ++ [y] := by
  induction xs generalizing ys with
  | nil =>
    cases ys with
    | nil =>
      rw [List.nil_append, List.nil_append, cons_le_cons_iff]
      have hxy := hlast rfl
      by_cases heq : x = y
      · exact .inr ⟨heq, le_rfl⟩
      · exact .inl (by omega)
    | cons b ys => cases hlength
  | cons a xs ih =>
    cases ys with
    | nil => cases hlength
    | cons b ys =>
      rw [List.cons_append, List.cons_append, cons_le_cons_iff]
      rcases cons_le_cons_iff.1 h with hlt | ⟨rfl, hrest⟩
      · exact .inl hlt
      · refine .inr ⟨rfl, ih (Nat.succ.inj hlength) hrest fun heq => hlast ?_⟩
        rw [heq]

/-- Totals that are nowhere above the least ones are the least ones. -/
theorem eq_of_least {fixed : List (Nat × Int)} {total : Nat → Int}
    (hle : ∀ p ∈ fixed, total p.1 ≤ p.2)
    (hleast : fixed.map (·.2) ≤ fixed.map fun p => total p.1) : ∀ p ∈ fixed, total p.1 = p.2 := by
  induction fixed with
  | nil => simp
  | cons q fixed ih =>
    obtain ⟨hq, hrest⟩ := List.forall_mem_cons.1 hle
    rw [List.map_cons, List.map_cons, cons_le_cons_iff] at hleast
    rcases hleast with hlt | ⟨heq, hleast⟩
    · omega
    · exact List.forall_mem_cons.2 ⟨heq.symm, ih hrest hleast⟩

/-- The totals of some prices are fixed by what is said. -/
structure Bounded (m : Model) (fixed : List (Nat × Int)) (exprs : List Expr) : Prop where
  /-- Values that satisfy what is said are feasible. -/
  feasible : ∀ value, Expr.AllHold value exprs →
    m.Feasible value ∧ Expr.AllHold value (m.vars.flatMap variableExprs)
  /-- Their totals do not exceed the fixed ones. -/
  sound : ∀ value, Expr.AllHold value exprs → ∀ p ∈ fixed, m.tierTotal value p.1 ≤ p.2
  /-- A feasible assignment with the fixed totals satisfies what is said. -/
  complete : ∀ value, m.Feasible value → (∀ p ∈ fixed, m.tierTotal value p.1 = p.2) →
    Expr.AllHold (m.extended value) exprs

/-- The fixed totals are the least ones. -/
def Least (m : Model) (fixed : List (Nat × Int)) : Prop :=
  ∀ value, m.Feasible value → fixed.map (·.2) ≤ fixed.map fun p => m.tierTotal value p.1

/-- Hard constraints bound no tier. -/
theorem bounded_hard (hm : m.Formulable) : Bounded m [] (sayings m m.hardConstraints) := by
  have hmem : ∀ c ∈ m.hardConstraints, c ∈ m.constraints :=
    fun c hc => (Model.mem_hardConstraints.1 hc).1
  refine ⟨fun value hall => ?_, fun _ _ => by simp, fun value hfeasible _ => ?_⟩
  · obtain ⟨hvars, hhard⟩ := Expr.allHold_append.1 hall
    obtain ⟨hin, hholds, -⟩ := hm.sound hmem hvars hhard
    refine ⟨hm.feasible_iff.2 ⟨hin, fun c hc hweight => ?_⟩, hvars⟩
    exact hholds c (Model.mem_hardConstraints.2 ⟨hc, hweight⟩) hweight
  · refine Expr.allHold_append.2 ⟨hm.allHold_extended_vars hfeasible.inDomains, ?_⟩
    rw [Expr.allHold_iff, List.forall_mem_flatMap]
    exact fun c hc => Expr.allHold_iff.1 (hm.allHold_extended hfeasible (hmem c hc))

theorem least_nil (m : Model) : Least m [] := fun _ _ => le_rfl

section Bounded

variable {fixed : List (Nat × Int)} {exprs es : List Expr}

/-- Saying more that the extension of every feasible assignment satisfies fixes nothing. -/
theorem Bounded.append (h : Bounded m fixed exprs)
    (hes : ∀ value, m.Feasible value → Expr.AllHold (m.extended value) es) :
    Bounded m fixed (exprs ++ es) := by
  refine ⟨fun value hall => ?_, fun value hall => ?_, fun value hfeasible hfixed => ?_⟩
  · exact h.feasible value (Expr.allHold_append.1 hall).1
  · exact h.sound value (Expr.allHold_append.1 hall).1
  · exact Expr.allHold_append.2 ⟨h.complete value hfeasible hfixed, hes value hfeasible⟩

/-- The variable of a tier is no less than its total. -/
theorem Bounded.total_le (hm : m.Formulable) (h : Bounded m fixed exprs)
    (hes : TierExprs m name price es) (hall : Expr.AllHold value (exprs ++ es)) :
    m.tierTotal value price ≤ value name ∧ 0 ≤ value name := by
  obtain ⟨hexprs, htier⟩ := Expr.allHold_append.1 hall
  exact hes.sound hm (h.feasible value hexprs).2 htier

/-- Bounds on the sum that the final value satisfies do no harm, and the last one bounds the
total. -/
theorem Bounded.fix (h : Bounded m fixed exprs)
    (htotal : ∀ value, Expr.AllHold value exprs → m.tierTotal value price ≤ value name)
    (hname : ∀ value, m.extended value name = m.tierTotal value price) {op : Comparator}
    (hop : op.Caps) {ks : List Int} {v : Int} (hks : ∀ k ∈ ks, v ≤ k) :
    Bounded m (fixed ++ [(price, v)]) (exprs ++ Expr.capped name op ks v) := by
  refine ⟨fun value hall => h.feasible value (Expr.allHold_append.1 hall).1, fun value hall => ?_,
    fun value hfeasible hfixed => ?_⟩
  · obtain ⟨hexprs, hcapped⟩ := Expr.allHold_append.1 hall
    refine List.forall_mem_append.2 ⟨h.sound value hexprs, fun p hp => ?_⟩
    rw [List.mem_singleton.1 hp]
    exact (htotal value hexprs).trans (Expr.le_of_capped hop hcapped)
  · obtain ⟨hbefore, hlast⟩ := List.forall_mem_append.1 hfixed
    refine Expr.allHold_append.2
      ⟨h.complete value hfeasible hbefore, Expr.allHold_capped hop hks ?_⟩
    rw [hname]
    exact hlast _ List.mem_cons_self

/-- The least value of the sum is the least total among the assignments with the least totals so
far. -/
theorem Least.append (hleast : Least m fixed) (h : Bounded m fixed exprs)
    (hname : ∀ value, m.extended value name = m.tierTotal value price) {v : Int}
    (hmin : ∀ value, Expr.AllHold value exprs → v ≤ value name) :
    Least m (fixed ++ [(price, v)]) := by
  intro value hfeasible
  rw [List.map_append, List.map_append]
  refine append_le_append (by simp) (hleast value hfeasible) fun heq => ?_
  -- The last total counts only where the others are the fixed ones, and then the extension of the
  -- assignment satisfies what is said.
  have hfixed : ∀ p ∈ fixed, m.tierTotal value p.1 = p.2 :=
    fun p hp => ((List.map_inj_left.1 heq) p hp).symm
  show v ≤ m.tierTotal value price
  rw [← hname value]
  exact hmin _ (h.complete value hfeasible hfixed)

/-- A solution has the fixed totals, if these are the least ones. -/
theorem Bounded.totals_eq (h : Bounded m fixed exprs) (hleast : Least m fixed)
    (hall : Expr.AllHold value exprs) : ∀ p ∈ fixed, m.tierTotal value p.1 = p.2 :=
  eq_of_least (h.sound value hall) (hleast value (h.feasible value hall).1)

end Bounded

end Formulation

end WeightedCsp

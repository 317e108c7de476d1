import WeightedCsp.Proofs.Csp.Acceptance
import WeightedCsp.Proofs.Formulation.Translation

/-!
# What is said of a model is accepted

Every auxiliary variable ranges from zero to a greatest value that depends on the model alone
(`Model.greatest`), and every variable of the model over its domain.  So a name is declared over
the same values wherever it is declared (`Model.valuesOf`), and what is said of an entity speaks of
names that were declared before.  A session accepts it, whatever else was said in between.
-/

namespace WeightedCsp

namespace Comparator

theorem excess?_nonneg {a b extra x : Int} (h : excess? a b extra = some x) : 0 ≤ x := by
  rw [(excess?_eq_some_iff.1 h).2.2]
  exact Int.le_max_right _ _

theorem maxViolation_nonneg (op : Comparator) (rhs lo hi : Int) :
    0 ≤ op.maxViolation rhs lo hi := by
  unfold maxViolation
  cases h : op.maxViolation? rhs lo hi with
  | none => decide
  | some x =>
    rw [Option.getD_some]
    cases op with
    | eq =>
      obtain ⟨above, habove, h₁⟩ := Option.bind_eq_some_iff.1 h
      obtain ⟨below, -, h₂⟩ := Option.bind_eq_some_iff.1 h₁
      cases h₂
      exact (excess?_nonneg habove).trans (Int.le_max_left _ _)
    | le => exact excess?_nonneg h
    | lt => exact excess?_nonneg h
    | ge => exact excess?_nonneg h
    | gt => exact excess?_nonneg h

end Comparator

namespace Constraint

/-- The greatest amount by which the two sides of a comparison differ in the direction of `op`. -/
def sideBound (op : Comparator) (c : Constraint) : Int :=
  match c.body with
  | .linear terms _ rhs =>
    op.maxViolation rhs (rangeOrAll (linearRange? terms)).1 (rangeOrAll (linearRange? terms)).2
  | .pseudoBoolean terms _ rhs =>
    op.maxViolation rhs (rangeOrAll (indicatorRange? terms)).1
      (rangeOrAll (indicatorRange? terms)).2
  | .conflict _ => 0
  | .allDifferent _ => 0

theorem sideBound_nonneg (op : Comparator) (c : Constraint) : 0 ≤ c.sideBound op := by
  obtain ⟨name, weight, body⟩ := c
  cases body with
  | linear _ _ _ => exact Comparator.maxViolation_nonneg _ _ _ _
  | pseudoBoolean _ _ _ => exact Comparator.maxViolation_nonneg _ _ _ _
  | conflict _ => exact Int.le_refl 0
  | allDifferent _ => exact Int.le_refl 0

/-- The greatest value of the penalty. -/
def penaltyBound (c : Constraint) : Int := c.penaltyBound?.getD 0

theorem penaltyBound_nonneg (c : Constraint) : 0 ≤ c.penaltyBound := by
  obtain ⟨name, weight, body⟩ := c
  unfold penaltyBound penaltyBound?
  cases body with
  | linear _ _ _ =>
    simp only [Option.getD_some]
    split_ifs
    · exact Int.le_refl 0
    · exact Comparator.maxViolation_nonneg _ _ _ _
  | pseudoBoolean _ _ _ =>
    simp only [Option.getD_some]
    split_ifs
    · exact Int.le_refl 0
    · exact Comparator.maxViolation_nonneg _ _ _ _
  | conflict _ =>
    simp only [Option.getD_some]
    split_ifs <;> decide
  | allDifferent _ => exact Int.le_refl 0

end Constraint

namespace Model

/-- The greatest total of the penalties of a price. -/
def tierBound (m : Model) (price : Nat) : Int := ((m.ofPrice price).map (·.penaltyBound)).sum

theorem tierBound_nonneg (m : Model) (price : Nat) : 0 ≤ m.tierBound price := by
  refine List.sum_nonneg fun x hx => ?_
  obtain ⟨c, -, rfl⟩ := List.mem_map.1 hx
  exact c.penaltyBound_nonneg

/-- The greatest weighted total of the given prices. -/
def pricesBound (m : Model) (prices : List Nat) : Int :=
  (prices.map fun w : Nat => (w : Int) * m.tierBound w).sum

theorem pricesBound_nonneg (m : Model) (prices : List Nat) : 0 ≤ m.pricesBound prices := by
  refine List.sum_nonneg fun x hx => ?_
  obtain ⟨w, -, rfl⟩ := List.mem_map.1 hx
  exact Int.mul_nonneg (Int.natCast_nonneg w) (m.tierBound_nonneg w)

/-- The greatest value of an auxiliary variable. -/
def greatest (m : Model) : Names.Aux → Int
  | .indicator _ _ => 1
  | .penalty c => (m.findConstraint? c).elim 0 (·.penaltyBound)
  | .deficit c => (m.findConstraint? c).elim 0 (·.sideBound .ge)
  | .surplus c => (m.findConstraint? c).elim 0 (·.sideBound .le)
  | .objective => m.pricesBound (Formulation.prices (m.softConstraints.map Formulation.penaltyFor))
  | .tier price => m.tierBound price
  | .heaviest => m.tiers.head?.elim 0 fun t => m.tierBound t.price
  | .lighter => m.pricesBound (m.tiers.tail.map (·.price))
  | .lighterTier price => m.tierBound price

theorem elim_nonneg {α : Type} {f : α → Int} (hf : ∀ a, 0 ≤ f a) (o : Option α) :
    0 ≤ o.elim 0 f := by
  cases o with
  | none => exact Int.le_refl 0
  | some a => exact hf a

theorem greatest_nonneg (m : Model) (a : Names.Aux) : 0 ≤ m.greatest a := by
  cases a with
  | indicator _ _ => exact Int.one_nonneg
  | penalty c => exact elim_nonneg Constraint.penaltyBound_nonneg _
  | deficit c => exact elim_nonneg (Constraint.sideBound_nonneg _) _
  | surplus c => exact elim_nonneg (Constraint.sideBound_nonneg _) _
  | objective => exact m.pricesBound_nonneg _
  | tier price => exact m.tierBound_nonneg price
  | heaviest => exact elim_nonneg (fun t : Tier => m.tierBound_nonneg t.price) _
  | lighter => exact m.pricesBound_nonneg _
  | lighterTier price => exact m.tierBound_nonneg price

open Classical in
/-- The values that a name is declared over. -/
noncomputable def valuesOf (m : Model) (name : String) : List Int :=
  if h : ∃ a : Names.Aux, a.Valid ∧ a.name = name then Ascending.range 0 (m.greatest h.choose)
  else (m.findVariable? name).elim [] (·.domain.values)

variable {m : Model}

theorem valuesOf_name (a : Names.Aux) (ha : a.Valid) :
    m.valuesOf a.name = Ascending.range 0 (m.greatest a) := by
  have h : ∃ b : Names.Aux, b.Valid ∧ b.name = a.name := ⟨a, ha, rfl⟩
  rw [valuesOf, dif_pos h, Names.Aux.name_injective h.choose_spec.1 ha h.choose_spec.2]

theorem Formulable.valuesOf_var (hm : m.Formulable) {x : Variable} (hx : x ∈ m.vars) :
    m.valuesOf x.name = x.domain.values := by
  have hfind : m.findVariable? x.name = some x := find?_key hm.varsNodup hx
  rw [valuesOf, dif_neg, hfind]
  · rfl
  · rintro ⟨a, -, hname⟩
    have hvalid := hm.varNames x hx
    rw [← hname, Names.Aux.not_isValid_name] at hvalid
    cases hvalid

/-- An auxiliary variable is declared over its range. -/
theorem fits_aux (a : Names.Aux) (ha : a.Valid) {ub : Int} (hub : ub = m.greatest a)
    (names : List String) : (Expr.intRange a.name 0 ub).Fits m.valuesOf names := by
  show Ascending.range 0 ub = m.valuesOf a.name ∧ Ascending.range 0 ub ≠ []
  rw [valuesOf_name a ha, hub]
  refine ⟨rfl, List.ne_nil_of_mem ((Ascending.mem_range 0 0 _).2 ⟨Int.le_refl 0, ?_⟩)⟩
  exact m.greatest_nonneg a

/-! ### Entities -/

/-- The variables of the model and their indicators are declared. -/
def Introduced (m : Model) (names : List String) : Prop :=
  ∀ x ∈ m.vars, x.name ∈ names ∧ ∀ k ∈ x.domain, Names.indicator x.name k ∈ names

theorem Introduced.mono {names names' : List String} (h : m.Introduced names)
    (hsub : names ⊆ names') : m.Introduced names' :=
  fun x hx => ⟨hsub (h x hx).1, fun k hk => hsub ((h x hx).2 k hk)⟩

end Model

namespace Nnf

theorem allSingle_nnfs {names : List String} {positive : Bool} {es : List Expr}
    (h : ∀ e ∈ es, (e.nnf positive).Single names) : AllSingle names (Expr.nnfs positive es) := by
  induction es with
  | nil => trivial
  | cons e es ih =>
    obtain ⟨he, hrest⟩ := List.forall_mem_cons.1 h
    exact ⟨he, ih hrest⟩

/-- A comparison of one declared variable. -/
theorem single_cmp {names : List String} {name : String} (h : name ∈ names) (op : Comparator)
    (k : Int) (positive : Bool) : ((Expr.cmp name op k).nnf positive).Single names :=
  ⟨Nat.le_refl _, by simpa using h⟩

end Nnf

namespace Model.Formulable

open Formulation

variable {m : Model} {names : List String}

theorem accepts_indicatorExprs (hm : m.Formulable) {x : Variable} (hx : x ∈ m.vars) (k : Int)
    (hname : x.name ∈ names) : Expr.Accepts m.valuesOf names (indicatorExprs x.name k) := by
  have hvalid : (Names.Aux.indicator x.name k).Valid := ⟨hm.varNames x hx, hm.notReserved x hx⟩
  have hx' : x.name ∈ names ++ [Names.indicator x.name k] := List.mem_append_left _ hname
  have hk : Names.indicator x.name k ∈ names ++ [Names.indicator x.name k] := by simp
  refine ⟨fits_aux (.indicator x.name k) hvalid rfl names, Expr.accepts_of_forall ?_⟩
  show ∀ e ∈ [_, _, _], Expr.Fits m.valuesOf (names ++ [Names.indicator x.name k]) e
  simp only [List.forall_mem_cons, List.not_mem_nil, false_imp_iff, implies_true, and_true]
  refine ⟨⟨_, rfl, ?_, ?_, trivial⟩, ⟨_, rfl, ?_, ?_, trivial⟩,
    ⟨_, rfl, ⟨?_, ?_, trivial⟩, ?_, trivial⟩⟩
  · exact Nnf.single_cmp hk _ _ _
  · exact Nnf.single_cmp hx' _ _ _
  · exact Nnf.single_cmp hk _ _ _
  · exact Nnf.single_cmp hx' _ _ _
  · exact Nnf.single_cmp hx' _ _ _
  · exact Nnf.single_cmp hx' _ _ _
  · exact Nnf.single_cmp hk _ _ _

theorem accepts_variableExprs (hm : m.Formulable) (names : List String) :
    Expr.Accepts m.valuesOf names (m.vars.flatMap variableExprs) := by
  refine Expr.accepts_flatMap fun x hx => ⟨?_, Expr.accepts_flatMap fun k _ => ?_⟩
  · exact ⟨(hm.valuesOf_var hx).symm, x.domain.nonempty⟩
  · exact hm.accepts_indicatorExprs hx k (List.mem_append_right _ (by simp [Expr.declares?,
      Expr.unlabeled]))

/-- What is said of the variables introduces them. -/
theorem introduced_variableExprs (m : Model) :
    m.Introduced (Expr.declaredBy (m.vars.flatMap variableExprs)) := by
  intro x hx
  refine ⟨Expr.mem_declaredBy.2 ⟨.int x.name x.domain.values, ?_, rfl⟩, fun k hk =>
    Expr.mem_declaredBy.2 ⟨Expr.intRange (Names.indicator x.name k) 0 1, ?_, rfl⟩⟩
  · exact List.mem_flatMap.2 ⟨x, hx, by simp [variableExprs]⟩
  · refine List.mem_flatMap.2 ⟨x, hx, List.mem_cons_of_mem _ (List.mem_flatMap.2 ⟨k, hk, ?_⟩)⟩
    simp [indicatorExprs]

/-! ### Constraints -/

section Constraints

variable {c : Constraint}

theorem greatest_penalty (hm : m.Formulable) (hc : c ∈ m.constraints) :
    m.greatest (.penalty c.name) = c.penaltyBound := by
  rw [greatest, hm.findConstraint? hc]
  rfl

theorem greatest_deficit (hm : m.Formulable) (hc : c ∈ m.constraints) :
    m.greatest (.deficit c.name) = c.sideBound .ge := by
  rw [greatest, hm.findConstraint? hc]
  rfl

theorem greatest_surplus (hm : m.Formulable) (hc : c ∈ m.constraints) :
    m.greatest (.surplus c.name) = c.sideBound .le := by
  rw [greatest, hm.findConstraint? hc]
  rfl

/-- A comparison of declared variables, relaxed or not. -/
theorem accepts_comparisonExprs {name : String} (hvalid : Identifier.isValid name)
    {weight : Weight} {terms : List NamedTerm} {op : Comparator} {rhs : Int} {range : Int × Int}
    (hterms : ∀ t ∈ terms, t.2 ∈ names)
    (hpenalty : weight ≠ .hard → op.maxViolation rhs range.1 range.2 = m.greatest (.penalty name))
    (hdeficit : Comparator.ge.maxViolation rhs range.1 range.2 = m.greatest (.deficit name))
    (hsurplus : Comparator.le.maxViolation rhs range.1 range.2 = m.greatest (.surplus name)) :
    Expr.Accepts m.valuesOf names (comparisonExprs name weight terms op rhs range) := by
  cases weight with
  | hard => exact ⟨hterms, trivial⟩
  | soft price =>
    -- Whatever is in scope, each auxiliary variable is declared over the range of the model.
    have hpen := fun ns => fits_aux (m := m) (.penalty name) hvalid (hpenalty (by simp)) ns
    have hdef := fun ns => fits_aux (m := m) (.deficit name) hvalid hdeficit ns
    have hsur := fun ns => fits_aux (m := m) (.surplus name) hvalid hsurplus ns
    cases op with
    | eq =>
      refine ⟨hpen _, hdef _, hsur _, ?_, ?_, trivial⟩
      · show ∀ t ∈ [_, _, _], _
        simp [Expr.intRange, Expr.declares?, Expr.unlabeled]
      · refine List.forall_mem_append.2 ⟨fun t ht => ?_, ?_⟩
        · simp [hterms t ht]
        · simp [Expr.intRange, Expr.declares?, Expr.unlabeled]
    | le | lt | ge | gt =>
      refine ⟨hpen _, List.forall_mem_append.2 ⟨fun t ht => ?_, ?_⟩, trivial⟩
      · exact List.mem_append_left _ (hterms t ht)
      · simp [Expr.intRange, Expr.declares?, Expr.unlabeled]

theorem single_deniedExpr {t : Predicate} (h : Names.indicator t.var.name t.value ∈ names) :
    ((deniedExpr t).nnf true).Single names := by
  unfold deniedExpr
  split_ifs
  · exact Nnf.single_cmp h _ _ _
  · exact Nnf.single_cmp h _ _ _

theorem accepts_conflictExprs (hm : m.Formulable) {name : String} {weight : Weight}
    {terms : List Predicate} (hc : ⟨name, weight, .conflict terms⟩ ∈ m.constraints)
    (hterms : ∀ t ∈ terms, Names.indicator t.var.name t.value ∈ names) :
    Expr.Accepts m.valuesOf names (conflictExprs name weight terms) := by
  have hdenied : ∀ names', names ⊆ names' → ∀ e ∈ terms.map deniedExpr,
      (e.nnf true).Single names' := by
    intro names' hsub e he
    obtain ⟨t, ht, rfl⟩ := List.mem_map.1 he
    exact single_deniedExpr (hsub (hterms t ht))
  have hvalid := (hm.constraints _ hc).name
  have hgreatest := hm.greatest_penalty hc
  cases weight with
  | hard => exact ⟨⟨_, rfl, Nnf.allSingle_nnfs (hdenied names (List.Subset.refl _))⟩, trivial⟩
  | soft price =>
    refine ⟨fits_aux (.penalty name) hvalid hgreatest.symm names, ⟨_, rfl, ?_⟩, trivial⟩
    refine Nnf.allSingle_nnfs
      (List.forall_mem_append.2 ⟨hdenied _ (List.subset_append_left _ _), ?_⟩)
    intro e he
    rw [List.mem_singleton.1 he]
    exact Nnf.single_cmp (List.mem_append_right _ (by simp [Expr.intRange, Expr.declares?,
      Expr.unlabeled])) _ _ _

/-- **Constraints.** Where the variables are introduced, what is said of a constraint is
accepted. -/
theorem accepts_constraintExprs (hm : m.Formulable) (hintro : m.Introduced names)
    (hc : c ∈ m.constraints) : Expr.Accepts m.valuesOf names (constraintExprs c) := by
  have hvars : ∀ x ∈ c.vars, x.name ∈ names ∧ ∀ k ∈ x.domain, Names.indicator x.name k ∈ names :=
    fun x hx => hintro x (hm.declared c hc x hx)
  have hwell := hm.constraints c hc
  have hpenalty := hm.greatest_penalty hc
  have hdeficit := hm.greatest_deficit hc
  have hsurplus := hm.greatest_surplus hc
  obtain ⟨name, weight, body⟩ := c
  have hsoft : weight ≠ .hard → weight.isHard = false := by
    cases weight <;> simp [Weight.isHard]
  cases body with
  | linear terms op rhs =>
    refine accepts_comparisonExprs hwell.name ?_ (fun hne => ?_) hdeficit.symm hsurplus.symm
    · intro t ht
      obtain ⟨s, hs, rfl⟩ := List.mem_map.1 ht
      exact (hvars s.var (List.mem_map_of_mem hs)).1
    · rw [hpenalty]
      simp [Constraint.penaltyBound, Constraint.penaltyBound?, Constraint.isHard, hsoft hne]
  | pseudoBoolean terms op rhs =>
    refine accepts_comparisonExprs hwell.name ?_ (fun hne => ?_) hdeficit.symm hsurplus.symm
    · intro t ht
      obtain ⟨s, hs, rfl⟩ := List.mem_map.1 ht
      exact (hvars s.var (List.mem_map_of_mem hs)).2 s.value (hwell.body.1 s hs)
    · rw [hpenalty]
      simp [Constraint.penaltyBound, Constraint.penaltyBound?, Constraint.isHard, hsoft hne]
  | conflict terms =>
    refine hm.accepts_conflictExprs hc fun t ht => ?_
    exact (hvars t.var (List.mem_map_of_mem ht)).2 t.value (hwell.body t ht)
  | allDifferent xs =>
    refine ⟨fun n hn => ?_, trivial⟩
    obtain ⟨x, hx, rfl⟩ := List.mem_map.1 hn
    exact (hvars x hx).1

/-- What is said of variables and constraints is accepted from the start. -/
theorem accepts_entities (hm : m.Formulable) {cs : List Constraint}
    (hcs : ∀ c ∈ cs, c ∈ m.constraints) :
    Expr.Accepts m.valuesOf [] (sayings m cs) := by
  refine Expr.accepts_append.2 ⟨hm.accepts_variableExprs [], Expr.accepts_flatMap fun c hc => ?_⟩
  exact hm.accepts_constraintExprs (introduced_variableExprs m) (hcs c hc)

/-- What is said of a soft constraint declares its penalty. -/
theorem penalty_mem_declaredBy (hm : m.Formulable) (hc : c ∈ m.softConstraints) :
    Names.penalty c.name ∈ Expr.declaredBy (constraintExprs c) := by
  obtain ⟨hmem, price, hweight⟩ := mem_softConstraints.1 hc
  have hdiff := hm.supported c hmem
  obtain ⟨name, weight, body⟩ := c
  cases hweight
  cases body with
  | linear terms op rhs =>
    cases op <;> exact List.mem_cons_self
  | pseudoBoolean terms op rhs =>
    cases op <;> exact List.mem_cons_self
  | conflict terms => exact List.mem_cons_self
  | allDifferent xs => simp [isSoftAllDifferent, Constraint.isSoft, Weight.isHard] at hdiff

end Constraints

/-! ### Sums -/

theorem names_opposites {parts : List Summand} {terms : List NamedTerm}
    (h : opposites parts = .ok terms) : ∀ t ∈ terms, ∃ s ∈ parts, t.2 = s.name := by
  induction parts generalizing terms with
  | nil =>
    cases h
    simp
  | cons s parts ih =>
    obtain ⟨w, -, h₁⟩ := Checked.bind_eq_ok.1 h
    obtain ⟨rest, hrest, h₂⟩ := Checked.bind_eq_ok.1 h₁
    cases h₂
    intro t ht
    rcases List.mem_cons.1 ht with rfl | ht
    · exact ⟨s, by simp, rfl⟩
    · obtain ⟨s', hs', heq⟩ := ih hrest t ht
      exact ⟨s', List.mem_cons_of_mem _ hs', heq⟩

/-- A sum of declared variables is accepted and declared. -/
theorem accepts_sumDefinition (a : Names.Aux) (ha : a.Valid) {parts : List Summand}
    {exprs : List Expr} (h : sumDefinition a.name parts = .ok exprs)
    (hub : Formulation.greatest parts = m.greatest a) (hparts : ∀ s ∈ parts, s.name ∈ names) :
    Expr.Accepts m.valuesOf names exprs ∧ a.name ∈ Expr.declaredBy exprs := by
  obtain ⟨terms, hterms, rfl⟩ := sumDefinition_eq_ok h
  refine ⟨⟨fits_aux a ha hub names, ?_, trivial⟩, List.mem_cons_self⟩
  refine List.forall_mem_cons.2 ⟨List.mem_append_right _ List.mem_cons_self, fun t ht => ?_⟩
  obtain ⟨s, hs, heq⟩ := names_opposites hterms t ht
  rw [heq]
  exact List.mem_append_left _ (hparts s hs)

/-- The penalties of soft constraints are declared. -/
def Penalized (cs : List Constraint) (names : List String) : Prop :=
  ∀ c ∈ cs, Names.penalty c.name ∈ names

theorem greatest_summands_penaltyFor (cs : List Constraint) :
    Formulation.greatest (summands (cs.map penaltyFor)) = (cs.map (·.penaltyBound)).sum := by
  rw [greatest_summands, List.map_map]
  rfl

theorem accepts_tierSums {ps : List Penalty} (hps : ps = m.softConstraints.map penaltyFor)
    (hnames : Penalized m.softConstraints names) {ws : List Nat} {exprs : List Expr}
    {parts : List Summand} (h : tierSums ps ws = .ok (exprs, parts)) :
    Expr.Accepts m.valuesOf names exprs ∧ ∀ w ∈ ws, Names.tier w ∈ Expr.declaredBy exprs := by
  induction ws generalizing exprs parts with
  | nil =>
    cases h
    exact ⟨trivial, by simp⟩
  | cons w ws ih =>
    obtain ⟨own, others, rest, hown, hrest, rfl, -⟩ := tierSums_cons_eq_ok h
    have hmembers : Formulation.ofPrice w ps = (m.ofPrice w).map penaltyFor := by
      rw [hps, ofPrice_map_penaltyFor]
    -- The bound of the sum depends on the penalties only through their constraints.
    have hbound : Formulation.greatest (summands (Formulation.ofPrice w ps)) =
        m.greatest (.tier w) := by
      rw [hmembers, greatest_summands_penaltyFor]
      rfl
    have hmembers' : ∀ s ∈ summands (Formulation.ofPrice w ps), s.name ∈ names := by
      rw [hmembers, summands, List.map_map]
      intro s hs
      obtain ⟨c, hc, rfl⟩ := List.mem_map.1 hs
      obtain ⟨hmem, hweight⟩ := mem_ofPrice.1 hc
      exact hnames c (mem_softConstraints.2 ⟨hmem, w, hweight⟩)
    obtain ⟨haccepts, hdeclared⟩ := ih hrest
    obtain ⟨haccepts', hdeclared'⟩ := accepts_sumDefinition (.tier w) trivial hown hbound hmembers'
    refine ⟨Expr.accepts_append.2 ⟨haccepts', haccepts.mono (List.subset_append_left _ _)⟩, ?_⟩
    rw [Expr.declaredBy_append]
    exact List.forall_mem_cons.2 ⟨List.mem_append_left _ hdeclared',
      fun v hv => List.mem_append_right _ (hdeclared v hv)⟩

/-- **The objective.** Where the penalties are declared, it is accepted and declared. -/
theorem accepts_objective {f : Formulation} {exprs : List Expr} (h : f.objective = .ok exprs)
    (hps : f.penalties = m.softConstraints.map penaltyFor)
    (hnames : Penalized m.softConstraints names) :
    Expr.Accepts m.valuesOf names exprs ∧ Names.objective ∈ Expr.declaredBy exprs := by
  obtain ⟨tiers, last, htiers, hlast, rfl⟩ := objective_eq_ok h
  obtain ⟨haccepts, hdeclared⟩ := accepts_tierSums hps hnames htiers
  have hbound : Formulation.greatest ((prices f.penalties).map (tierPart f.penalties)) =
      m.greatest .objective := by
    rw [Formulation.greatest, List.map_map, hps, greatest, pricesBound]
    refine congrArg List.sum (List.map_congr_left fun w _ => ?_)
    show (w : Int) * Formulation.greatest (summands (Formulation.ofPrice w _)) = _
    rw [ofPrice_map_penaltyFor, greatest_summands_penaltyFor]
    rfl
  have hparts : ∀ s ∈ (prices f.penalties).map (tierPart f.penalties),
      s.name ∈ names ++ Expr.declaredBy tiers := by
    intro s hs
    obtain ⟨w, hw, rfl⟩ := List.mem_map.1 hs
    exact List.mem_append_right _ (hdeclared w hw)
  obtain ⟨haccepts', hdeclared'⟩ := accepts_sumDefinition .objective trivial hlast hbound hparts
  rw [Expr.declaredBy_append]
  exact ⟨Expr.accepts_append.2 ⟨haccepts, haccepts'⟩, List.mem_append_right _ hdeclared'⟩

/-- **Models.** What is said of a model is accepted from the start. -/
theorem accepts_model (hm : m.Formulable) {os : List Expr} (h : objectiveExprs m = .ok os) :
    Expr.Accepts m.valuesOf [] (entityExprs m ++ os) ∧
      (m.softConstraints ≠ [] → Names.objective ∈ Expr.declaredBy os) := by
  have hentities : Expr.Accepts m.valuesOf [] (entityExprs m) := hm.accepts_entities fun c hc => hc
  rw [Expr.accepts_append]
  by_cases hsoft : m.softConstraints = []
  · have hnone : ¬(ofModel m).hasObjective := fun hobj => (hasObjective_ofModel m).1 hobj hsoft
    rw [objectiveExprs, if_neg hnone] at h
    cases h
    exact ⟨⟨hentities, trivial⟩, fun hne => absurd hsoft hne⟩
  · have hpenalized : Penalized m.softConstraints ([] ++ Expr.declaredBy (entityExprs m)) := by
      intro c hc
      rw [List.nil_append, entityExprs, sayings, Expr.declaredBy_append]
      refine List.mem_append_right _ (Expr.mem_declaredBy.2 ?_)
      obtain ⟨e, he, hdecl⟩ := Expr.mem_declaredBy.1 (hm.penalty_mem_declaredBy hc)
      exact ⟨e, List.mem_flatMap.2 ⟨c, (mem_softConstraints.1 hc).1, he⟩, hdecl⟩
    obtain ⟨haccepts, hdeclared⟩ :=
      accepts_objective (objective_of_objectiveExprs h hsoft) rfl hpenalized
    exact ⟨⟨hentities, haccepts⟩, fun _ => hdeclared⟩

end Model.Formulable

end WeightedCsp

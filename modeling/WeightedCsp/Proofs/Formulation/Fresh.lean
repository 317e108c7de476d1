import WeightedCsp.Proofs.Formulation.Tiers

/-!
# Going on from a solution

What is accepted depends on the values of declared names only (`Expr.Accepts.allHold_congr`).  So a
solution need not be given up when more is said: it keeps the values of the names that are declared,
and the names that are new get their intended values (`exists_allHold_append`).

For this the new names have to be new.  Every auxiliary name of a soft constraint or of a sum of
penalties belongs to a price (`Model.auxPrice`), and what is said of a tier declares names of its
price only (`declaredBy_tierExprs`).  `Speaks` keeps account of the prices spoken of so far.
-/

namespace WeightedCsp

/-! ### Accepted expressions depend on declared names -/

variable {value value' : String → Int} {names : List String}

theorem Expr.total_congr {terms : List NamedTerm} (h : ∀ t ∈ terms, value t.2 = value' t.2) :
    total value terms = total value' terms := by
  induction terms with
  | nil => rfl
  | cons t terms ih =>
    obtain ⟨ht, hrest⟩ := List.forall_mem_cons.1 h
    rw [total_cons, total_cons, ht, ih hrest]

namespace Nnf

mutual

theorem Single.pure : ∀ f : Nnf, f.Single names → f.Pure
  | .compare _ _ _ _, _ => trivial
  | .all parts, h => AllSingle.allPure parts h
  | .any parts, h => AllSingle.allPure parts h

theorem AllSingle.allPure : ∀ fs : List Nnf, AllSingle names fs → AllPure fs
  | [], _ => trivial
  | f :: fs, h => ⟨Single.pure f h.1, AllSingle.allPure fs h.2⟩

end

mutual

/-- A formula hangs on its names. -/
theorem Single.holds_congr (heq : ∀ n ∈ names, value n = value' n) :
    ∀ f : Nnf, f.Single names → (f.Holds value ↔ f.Holds value')
  | .compare terms op rhs positive, h => by
    rw [Holds, Holds, Expr.total_congr fun t ht => heq t.2 (h.2 t ht)]
  | .all parts, h => (AllSingle.holds_congr heq parts h).1
  | .any parts, h => (AllSingle.holds_congr heq parts h).2

theorem AllSingle.holds_congr (heq : ∀ n ∈ names, value n = value' n) :
    ∀ fs : List Nnf, AllSingle names fs →
      (AllHold value fs ↔ AllHold value' fs) ∧ (SomeHolds value fs ↔ SomeHolds value' fs)
  | [], _ => ⟨Iff.rfl, Iff.rfl⟩
  | f :: fs, h => by
    obtain ⟨hall, hsome⟩ := AllSingle.holds_congr heq fs h.2
    have hf := Single.holds_congr heq f h.1
    exact ⟨and_congr hf hall, or_congr hf hsome⟩

end

end Nnf

namespace Expr

variable {values : String → List Int}

/-- An expression that fits hangs on the names and on the one that it declares. -/
theorem Fits.holds_congr {e : Expr} (h : e.Fits values names)
    (heq : ∀ n ∈ names ++ e.declares?.toList, value n = value' n) :
    e.Holds value ↔ e.Holds value' := by
  obtain ⟨hnames, hown⟩ := List.forall_mem_append.1 heq
  refine (holds_unlabeled e).symm.trans (Iff.trans ?_ (holds_unlabeled e))
  unfold Fits at h
  unfold declares? at hown
  -- A clause is read through its normal form, whose comparisons are about declared names.
  have hclause : ∀ f : Expr, (∃ parts, f.nnf true = .any parts ∧ Nnf.AllSingle names parts) →
      (f.Holds value ↔ f.Holds value') := by
    rintro f ⟨parts, hnnf, hparts⟩
    have hpure : (f.nnf true).Pure := by
      rw [hnnf]
      exact Nnf.AllSingle.allPure parts hparts
    have hsame : (f.nnf true).Holds value ↔ (f.nnf true).Holds value' := by
      rw [hnnf]
      exact (Nnf.AllSingle.holds_congr hnames parts hparts).2
    rwa [holds_nnf f true hpure, holds_nnf f true hpure, iff_true_right rfl, iff_true_right rfl]
      at hsame
  generalize e.unlabeled = f at h hown
  cases f with
  | int name own =>
    have hname : value name = value' name := hown name (by simp)
    rw [Holds, Holds, hname]
  | linear terms op rhs => rw [Holds, Holds, total_congr fun t ht => hnames t.2 (h t ht)]
  | allDifferent xs =>
    rw [Holds, Holds]
    refine List.Pairwise.iff_of_mem fun {x y} hx hy => ?_
    rw [hnames x (h x hx), hnames y (h y hy)]
  | not f => exact hclause _ h
  | and es => exact hclause _ h
  | or es => exact hclause _ h
  | imp f g => exact hclause _ h
  | labeled label f => exact hclause _ h

/-- **Accepted expressions** depend on the names that are declared. -/
theorem Accepts.allHold_congr {es : List Expr} (h : Accepts values names es)
    (heq : ∀ n ∈ names ++ declaredBy es, value n = value' n) :
    AllHold value es ↔ AllHold value' es := by
  induction es generalizing names with
  | nil => exact Iff.rfl
  | cons e es ih =>
    rw [declaredBy_cons, ← List.append_assoc] at heq
    refine and_congr (h.1.holds_congr fun n hn => heq n (List.mem_append_left _ hn)) ?_
    exact ih h.2 heq

end Expr

namespace Model

variable {m : Model}

/-! ### Names and prices -/

/-- The price that an auxiliary variable belongs to: that of the constraints it is about. -/
def auxPrice (m : Model) : Names.Aux → Option Nat
  | .indicator _ _ => none
  | .penalty c => (m.findConstraint? c).map (·.weight.price)
  | .deficit c => (m.findConstraint? c).map (·.weight.price)
  | .surplus c => (m.findConstraint? c).map (·.weight.price)
  | .objective => none
  | .tier price => some price
  | .heaviest => m.tiers.head?.map (·.price)
  | .lighter => none
  | .lighterTier price => some price

/-- The name is that of an auxiliary variable of the price. -/
def OfPrice (m : Model) (price : Nat) (name : String) : Prop :=
  ∃ a : Names.Aux, a.Valid ∧ a.name = name ∧ m.auxPrice a = some price

/-- A name belongs to one price at most. -/
theorem OfPrice.eq {a : Names.Aux} (ha : a.Valid) {price : Nat} (h : m.OfPrice price a.name) :
    m.auxPrice a = some price := by
  obtain ⟨a', ha', hname, hprice⟩ := h
  rwa [Names.Aux.name_injective ha' ha hname] at hprice

/-- The auxiliary variable is the sum of the penalties of a price. -/
structure Sums (m : Model) (a : Names.Aux) (price : Nat) : Prop where
  /-- Its name is that of no other. -/
  valid : a.Valid
  /-- It belongs to the price. -/
  ofPrice : m.auxPrice a = some price
  /-- Its greatest value is the greatest total. -/
  greatest : m.greatest a = m.tierBound price
  /-- Its intended value is the total violation. -/
  meaning : ∀ value, m.meaning value a = m.tierTotal value price

/-- The extended assignment gives the name the total of the price. -/
theorem Sums.extended {a : Names.Aux} {price : Nat} (h : m.Sums a price) (value : String → Int) :
    m.extended value a.name = m.tierTotal value price :=
  (extended_name a h.valid).trans (h.meaning value)

theorem sums_tier (m : Model) (price : Nat) : m.Sums (.tier price) price :=
  ⟨trivial, rfl, rfl, fun _ => rfl⟩

/-- The names of the variables and of their indicators. -/
def ownNames (m : Model) : List String := Expr.declaredBy (m.vars.flatMap Formulation.variableExprs)

/-- Own names are those of variables and indicators. -/
theorem mem_ownNames {name : String} (h : name ∈ m.ownNames) :
    ∃ x ∈ m.vars, name = x.name ∨ ∃ k ∈ x.domain, name = Names.indicator x.name k := by
  obtain ⟨e, he, hdecl⟩ := Expr.mem_declaredBy.1 h
  obtain ⟨x, hx, he⟩ := List.mem_flatMap.1 he
  refine ⟨x, hx, ?_⟩
  rcases List.mem_cons.1 he with rfl | he
  · cases hdecl
    exact .inl rfl
  · obtain ⟨k, hk, he⟩ := List.mem_flatMap.1 he
    simp only [Formulation.indicatorExprs, List.mem_cons, List.not_mem_nil, or_false] at he
    rcases he with rfl | rfl | rfl | rfl
    · cases hdecl
      exact .inr ⟨k, hk, rfl⟩
    · cases hdecl
    · cases hdecl
    · cases hdecl

/-- Of the auxiliary names, only indicators are names of the model itself. -/
theorem Formulable.name_notMem_ownNames (hm : m.Formulable) {a : Names.Aux} (ha : a.Valid)
    (hne : ∀ x k, a ≠ .indicator x k) : a.name ∉ m.ownNames := by
  intro h
  obtain ⟨x, hx, hname | ⟨k, -, hname⟩⟩ := mem_ownNames h
  · -- The name of a variable is an identifier, and no auxiliary name is one.
    have hvalid := hm.varNames x hx
    rw [← hname, Names.Aux.not_isValid_name] at hvalid
    cases hvalid
  · have hvalid : (Names.Aux.indicator x.name k).Valid := ⟨hm.varNames x hx, hm.notReserved x hx⟩
    exact hne x.name k (Names.Aux.name_injective ha hvalid hname)

/-- The values that satisfy what is said of the variables are the intended ones. -/
theorem Formulable.extended_ownNames (hm : m.Formulable)
    (hvars : Expr.AllHold value (m.vars.flatMap Formulation.variableExprs)) {name : String}
    (h : name ∈ m.ownNames) : m.extended value name = value name := by
  obtain ⟨x, hx, rfl | ⟨k, hk, rfl⟩⟩ := mem_ownNames h
  · exact hm.extended_var hx
  · have hindicated := (Formulation.allHold_flatMap_variableExprs.1 hvars).2
    rw [hindicated x hx k hk, hm.indicated_extended x hx k hk, hm.extended_var hx]

end Model

namespace Formulation

variable {m : Model} {price : Nat} {exprs es : List Expr}

/-- What is said of a constraint declares nothing but penalties, and only if it is soft. -/
theorem declaredBy_constraintExprs {c : Constraint} {name : String}
    (h : name ∈ Expr.declaredBy (constraintExprs c)) :
    c.weight ≠ .hard ∧
      (name = Names.penalty c.name ∨ name = Names.deficit c.name ∨
        name = Names.surplus c.name) := by
  obtain ⟨cname, weight, body⟩ := c
  cases weight with
  | hard =>
    cases body <;> simp [constraintExprs, comparisonExprs, conflictExprs, Expr.declaredBy,
      Expr.declares?, Expr.unlabeled] at h
  | soft price =>
    -- Both kinds of sums are relaxed alike; an equation needs a variable for each side.
    have hcomparison : ∀ terms op rhs range,
        name ∈ Expr.declaredBy (comparisonExprs cname (.soft price) terms op rhs range) →
        name = Names.penalty cname ∨ name = Names.deficit cname ∨ name = Names.surplus cname := by
      intro terms op rhs range h
      cases op with
      | eq =>
        simpa [comparisonExprs, relaxation, Expr.declaredBy, Expr.declares?, Expr.unlabeled,
          Expr.intRange] using h
      | le | lt | ge | gt =>
        simp [comparisonExprs, relaxation, Expr.declaredBy, Expr.declares?, Expr.unlabeled,
          Expr.intRange] at h
        exact .inl h
    refine ⟨by simp, ?_⟩
    cases body with
    | linear terms op rhs => exact hcomparison _ _ _ _ h
    | pseudoBoolean terms op rhs => exact hcomparison _ _ _ _ h
    | conflict terms =>
      simp [constraintExprs, conflictExprs, Expr.declaredBy, Expr.declares?, Expr.unlabeled,
        Expr.intRange] at h
      exact .inl h
    | allDifferent xs =>
      simp [constraintExprs, Expr.declaredBy, Expr.declares?, Expr.unlabeled] at h

/-- What a soft constraint declares belongs to its price. -/
theorem ofPrice_of_constraintExprs (hm : m.Formulable) {c : Constraint} (hc : c ∈ m.constraints)
    (hweight : c.weight = .soft price) {name : String}
    (h : name ∈ Expr.declaredBy (constraintExprs c)) : m.OfPrice price name := by
  have hvalid := (hm.constraints c hc).name
  have hprice : (m.findConstraint? c.name).map (·.weight.price) = some price := by
    rw [hm.findConstraint? hc, Option.map_some, hweight]
    rfl
  rcases (declaredBy_constraintExprs h).2 with rfl | rfl | rfl
  · exact ⟨.penalty c.name, hvalid, rfl, hprice⟩
  · exact ⟨.deficit c.name, hvalid, rfl, hprice⟩
  · exact ⟨.surplus c.name, hvalid, rfl, hprice⟩

/-- A sum declares its name and nothing else. -/
theorem declaredBy_sumDefinition {name : String} {parts : List Summand} {sums : List Expr}
    (h : sumDefinition name parts = .ok sums) : Expr.declaredBy sums = [name] := by
  obtain ⟨terms, -, rfl⟩ := sumDefinition_eq_ok h
  rfl

/-- **Tiers** declare names of their price. -/
theorem declaredBy_tierExprs (hm : m.Formulable) {a : Names.Aux} (ha : m.Sums a price)
    (hes : TierExprs m a.name price es) :
    ∀ name ∈ Expr.declaredBy es, m.OfPrice price name := by
  obtain ⟨sums, hsums, rfl⟩ := hes
  rw [Expr.declaredBy_append, declaredBy_sumDefinition hsums]
  refine List.forall_mem_append.2 ⟨fun name hname => ?_, ?_⟩
  · obtain ⟨e, he, hdecl⟩ := Expr.mem_declaredBy.1 hname
    obtain ⟨c, hc, he⟩ := List.mem_flatMap.1 he
    obtain ⟨hmem, hweight⟩ := Model.mem_ofPrice.1 hc
    exact ofPrice_of_constraintExprs hm hmem hweight (Expr.mem_declaredBy.2 ⟨e, he, hdecl⟩)
  · rw [List.forall_mem_singleton]
    exact ⟨a, ha.valid, rfl, ha.ofPrice⟩

/-! ### What was said so far -/

/-- What is said is accepted, introduces the variables of the model, and declares nothing beside
them but names of the given prices. -/
structure Speaks (m : Model) (prices : List Nat) (exprs : List Expr) : Prop where
  /-- What is said is accepted. -/
  accepts : Expr.Accepts m.valuesOf [] exprs
  /-- The variables are introduced. -/
  introduced : m.Introduced (Expr.declaredBy exprs)
  /-- All names are those of the model or of a price. -/
  names : ∀ name ∈ Expr.declaredBy exprs, name ∈ m.ownNames ∨ ∃ price ∈ prices, m.OfPrice price name

/-- Before any tier, only hard constraints have spoken. -/
theorem speaks_hard (hm : m.Formulable) : Speaks m [] (sayings m m.hardConstraints) := by
  have hmem : ∀ c ∈ m.hardConstraints, c ∈ m.constraints :=
    fun c hc => (Model.mem_hardConstraints.1 hc).1
  refine ⟨hm.accepts_entities hmem, ?_, fun name hname => ?_⟩
  · refine (Model.Formulable.introduced_variableExprs m).mono ?_
    rw [sayings, Expr.declaredBy_append]
    exact List.subset_append_left _ _
  · rw [sayings, Expr.declaredBy_append] at hname
    refine (List.mem_append.1 hname).imp_right fun hhard => ?_
    obtain ⟨e, he, hdecl⟩ := Expr.mem_declaredBy.1 hhard
    obtain ⟨c, hc, he⟩ := List.mem_flatMap.1 he
    have hsoft := (declaredBy_constraintExprs (Expr.mem_declaredBy.2 ⟨e, he, hdecl⟩)).1
    exact absurd (Model.mem_hardConstraints.1 hc).2 hsoft

section Speaks

variable {prices : List Nat}

/-- Bounds on a declared name may be added. -/
theorem Speaks.capped (h : Speaks m prices exprs) {name : String}
    (hname : name ∈ Expr.declaredBy exprs) (op : Comparator) (ks : List Int) (v : Int) :
    Speaks m prices (exprs ++ Expr.capped name op ks v) := by
  have hnone : Expr.declaredBy (exprs ++ Expr.capped name op ks v) = Expr.declaredBy exprs :=
    Expr.declaredBy_append_of_none Expr.declares?_capped
  refine ⟨Expr.accepts_append.2 ⟨h.accepts, Expr.accepts_capped hname⟩, ?_, ?_⟩
  · rw [hnone]
    exact h.introduced
  · rw [hnone]
    exact h.names

/-- What is said of a tier may be added. -/
theorem Speaks.tier (hm : m.Formulable) (h : Speaks m prices exprs) {a : Names.Aux}
    (ha : m.Sums a price) (hes : TierExprs m a.name price es) :
    Speaks m (prices ++ [price]) (exprs ++ es) := by
  have haccepts := (hes.accepts hm a ha.valid ha.greatest h.introduced).1
  refine ⟨Expr.accepts_append.2 ⟨h.accepts, haccepts⟩, ?_, ?_⟩
  · rw [Expr.declaredBy_append]
    exact h.introduced.mono (List.subset_append_left _ _)
  · rw [Expr.declaredBy_append]
    refine List.forall_mem_append.2
      ⟨fun name hname => ?_, fun name hname => .inr ⟨price, by simp, ?_⟩⟩
    · refine (h.names name hname).imp_right fun ⟨w, hw, hof⟩ => ⟨w, ?_, hof⟩
      exact List.mem_append_left _ hw
    · exact declaredBy_tierExprs hm ha hes name hname

/-- A name is new if it belongs to none of the prices. -/
theorem Speaks.notMem (hm : m.Formulable) (h : Speaks m prices exprs) {a : Names.Aux} (ha : a.Valid)
    (hne : ∀ x k, a ≠ .indicator x k) (hprice : ∀ w ∈ prices, m.auxPrice a ≠ some w) :
    a.name ∉ Expr.declaredBy exprs := by
  intro hname
  rcases h.names _ hname with hmem | ⟨w, hw, hof⟩
  · exact hm.name_notMem_ownNames ha hne hmem
  · exact hprice w hw (hof.eq ha)

/-- The names of a tier that has not spoken are fresh. -/
theorem Speaks.notMem_of_ofPrice (hm : m.Formulable) (h : Speaks m prices exprs)
    (hprice : price ∉ prices) {name : String} (hof : m.OfPrice price name) :
    name ∉ Expr.declaredBy exprs := by
  obtain ⟨a, ha, rfl, heq⟩ := hof
  refine h.notMem hm ha ?_ fun w hw hother => ?_
  · rintro x k rfl
    cases heq
  · cases heq.symm.trans hother
    exact hprice hw

/-- **Going on.** A solution of what was said extends to what is new: the declared names keep their
values, and the new names get their intended ones. -/
theorem Speaks.exists_allHold_append (hm : m.Formulable) (h : Speaks m prices exprs)
    (hvars : Expr.AllHold value (m.vars.flatMap variableExprs)) (hall : Expr.AllHold value exprs)
    (haccepts : Expr.Accepts m.valuesOf m.ownNames es)
    (hnew : ∀ name ∈ Expr.declaredBy es, name ∉ Expr.declaredBy exprs)
    (hes : Expr.AllHold (m.extended value) es) : ∃ value', Expr.AllHold value' (exprs ++ es) := by
  classical
  let value' : String → Int := fun name =>
    if name ∈ Expr.declaredBy exprs then value name else m.extended value name
  have hold : ∀ name ∈ [] ++ Expr.declaredBy exprs, value name = value' name :=
    fun name hname => (if_pos hname).symm
  have hfresh : ∀ name ∈ m.ownNames ++ Expr.declaredBy es, m.extended value name = value' name := by
    refine List.forall_mem_append.2 ⟨fun name hname => ?_, fun name hname => ?_⟩
    · -- On names of the model the old and the intended values agree.
      show _ = if name ∈ Expr.declaredBy exprs then value name else m.extended value name
      rw [hm.extended_ownNames hvars hname, ite_self]
    · exact (if_neg (hnew name hname)).symm
  exact ⟨value', Expr.allHold_append.2
    ⟨(h.accepts.allHold_congr hold).1 hall, (haccepts.allHold_congr hfresh).1 hes⟩⟩

end Speaks

end Formulation

end WeightedCsp

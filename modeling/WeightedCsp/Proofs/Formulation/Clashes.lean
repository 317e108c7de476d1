import WeightedCsp.Proofs.Formulation.Fresh

/-!
# Names that clash

Every variable that is declared for a model has a purpose: it is a variable of the model, or one of
the auxiliary ones.  A name should have one purpose only, but an identifier may hold the two
underscores that separate the parts of an auxiliary name.  So the indicator of `P__c` at `5` and the
penalty of `c__5` are both named `_P__c__5`, and likewise for the two sides of an equation.

`Names.Aux.name_eq_iff` says that these are the only clashes among identifiers, and
`Model.WellFormed.name_eq_name_iff` says it of the purposes of a model.
-/

namespace WeightedCsp

namespace Names

namespace Aux

/-- The indicator has the name of the penalty: its variable begins like one. -/
inductive Clashes : Aux → Aux → Prop
  /-- The indicator of `P__rest` and the penalty of `rest__k`. -/
  | penalty (rest : String) (k : Int) :
    Clashes (.indicator ("P__" ++ rest) k) (.penalty (rest ++ "__" ++ k.repr))
  /-- The indicator of `P1__rest` and the deficit of `rest__k`. -/
  | deficit (rest : String) (k : Int) :
    Clashes (.indicator ("P1__" ++ rest) k) (.deficit (rest ++ "__" ++ k.repr))
  /-- The indicator of `P2__rest` and the surplus of `rest__k`. -/
  | surplus (rest : String) (k : Int) :
    Clashes (.indicator ("P2__" ++ rest) k) (.surplus (rest ++ "__" ++ k.repr))

theorem Clashes.name_eq {a b : Aux} (h : Clashes a b) : a.name = b.name := by
  apply String.toList_injective
  cases h with
  | penalty rest k => simp [name, Names.indicator, Names.penalty, String.toList_append]
  | deficit rest k => simp [name, Names.indicator, Names.deficit, String.toList_append]
  | surplus rest k => simp [name, Names.indicator, Names.surplus, String.toList_append]

/-- The variable or constraint is named by an identifier. -/
def Named : Aux → Prop
  | indicator var _ => Identifier.isValid var
  | a => a.Valid

/-- A reserved name starts with one of the three prefixes. -/
theorem exists_of_isReserved {var : String} (h : isReserved var) :
    ∃ p ∈ ["P__", "P1__", "P2__"], ∃ rest, var = p ++ rest := by
  obtain ⟨p, hp, hpre⟩ := List.any_eq_true.1 h
  obtain ⟨rest, hrest⟩ := List.isPrefixOf_iff_prefix.1 hpre
  simp only [reserved, List.mem_cons, List.not_mem_nil, or_false] at hp
  have hvar : ∀ q : String, q.toList ++ rest = var.toList → var = q ++ String.ofList rest := by
    intro q hq
    apply String.toList_injective
    rw [String.toList_append, String.toList_ofList, hq]
  rcases hp with rfl | rfl | rfl
  · exact ⟨"P__", by simp, _, hvar "P__" hrest⟩
  · exact ⟨"P1__", by simp, _, hvar "P1__" hrest⟩
  · exact ⟨"P2__", by simp, _, hvar "P2__" hrest⟩

/-- The name of an indicator has more underscores than that of a sum of penalties. -/
theorem three_le_count_indicator (var : String) (k : Int) :
    3 ≤ (indicator var k).name.toList.count '_' := by
  simp [name, Names.indicator, String.toList_append]
  omega

/-- An indicator has the name of something else only if they clash. -/
theorem clashes_of_name_eq {var : String} {k : Int} {b : Aux} (hvar : Identifier.isValid var)
    (hb : b.Valid) (hne : ∀ x j, b ≠ .indicator x j) (h : (indicator var k).name = b.name) :
    Clashes (.indicator var k) b := by
  cases hreserved : isReserved var with
  | false =>
    have ha : (indicator var k).Valid := ⟨hvar, hreserved⟩
    exact absurd (name_injective ha hb h).symm (hne var k)
  | true =>
    -- The variable begins like a penalty, and what follows has to be the constraint and the value.
    obtain ⟨p, hp, rest, rfl⟩ := exists_of_isReserved hreserved
    have hlist := congrArg String.toList h
    simp only [name, Names.indicator, String.toList_append, List.append_assoc] at hlist
    have hconstraint : ∀ c : String, rest.toList ++ ("__".toList ++ k.repr.toList) = c.toList →
        c = rest ++ "__" ++ k.repr := by
      intro c hc
      apply String.toList_injective
      rw [← hc, String.toList_append, String.toList_append, List.append_assoc]
    have hcount := three_le_count_indicator (p ++ rest) k
    rw [h] at hcount
    simp only [List.mem_cons, List.not_mem_nil, or_false] at hp
    cases b with
    | indicator x j => exact absurd rfl (hne x j)
    | penalty c =>
      rcases hp with rfl | rfl | rfl
      · rw [hconstraint c (by simpa [Names.penalty, String.toList_append] using hlist)]
        exact .penalty rest k
      · simp [Names.penalty, String.toList_append] at hlist
      · simp [Names.penalty, String.toList_append] at hlist
    | deficit c =>
      rcases hp with rfl | rfl | rfl
      · simp [Names.deficit, String.toList_append] at hlist
      · rw [hconstraint c (by simpa [Names.deficit, String.toList_append] using hlist)]
        exact .deficit rest k
      · simp [Names.deficit, String.toList_append] at hlist
    | surplus c =>
      rcases hp with rfl | rfl | rfl
      · simp [Names.surplus, String.toList_append] at hlist
      · simp [Names.surplus, String.toList_append] at hlist
      · rw [hconstraint c (by simpa [Names.surplus, String.toList_append] using hlist)]
        exact .surplus rest k
    | objective => exact absurd hcount (by decide)
    | heaviest => exact absurd hcount (by decide)
    | lighter => exact absurd hcount (by decide)
    | tier price =>
      have hdigits := List.count_eq_zero.2 (underscore_notMem_padded 3 price)
      simp [name, Names.tier, String.toList_append, hdigits] at hcount
    | lighterTier price =>
      have hdigits := List.count_eq_zero.2 (underscore_notMem_padded 3 price)
      simp [name, Names.lighterTier, String.toList_append, hdigits] at hcount

/-- A name that is no indicator is valid. -/
theorem Named.valid {a : Aux} (h : a.Named) (hne : ∀ x j, a ≠ .indicator x j) : a.Valid := by
  cases a with
  | indicator var k => exact absurd rfl (hne var k)
  | penalty _ | deficit _ | surplus _ | objective | tier _ | heaviest | lighter | lighterTier _ =>
    exact h

/-- **Clashes.** Where all names are identifiers, two auxiliary variables have the same name if and
only if they are the same or clash. -/
theorem name_eq_iff {a b : Aux} (ha : a.Named) (hb : b.Named) :
    a.name = b.name ↔ a = b ∨ Clashes a b ∨ Clashes b a := by
  constructor
  · intro h
    by_cases hia : ∃ x j, a = .indicator x j
    · obtain ⟨var, k, rfl⟩ := hia
      by_cases hib : ∃ x j, b = .indicator x j
      · obtain ⟨var', k', rfl⟩ := hib
        -- Two indicators: the value is what follows the last underscore, so it can be read off.
        have hlist := congrArg String.toList h
        simp only [name, Names.indicator, String.toList_append, List.append_assoc] at hlist
        obtain ⟨hvar, hvalue⟩ := split_last (List.append_cancel_left hlist)
          (underscore_notMem_repr _) (underscore_notMem_repr _)
        rw [String.toList_injective hvar, repr_injective hvalue]
        exact .inl rfl
      · push Not at hib
        exact .inr (.inl (clashes_of_name_eq ha (hb.valid hib) hib h))
    · push Not at hia
      by_cases hib : ∃ x j, b = .indicator x j
      · obtain ⟨var, k, rfl⟩ := hib
        exact .inr (.inr (clashes_of_name_eq hb (ha.valid hia) hia h.symm))
      · push Not at hib
        exact .inl (name_injective (ha.valid hia) (hb.valid hib) h)
  · rintro (rfl | h | h)
    · rfl
    · exact h.name_eq
    · exact h.name_eq.symm

end Aux

/-- What a declared variable stands for. -/
inductive Purpose where
  | own (var : String)
  | aux (a : Aux)

namespace Purpose

/-- The name of the declared variable. -/
def name : Purpose → String
  | own var => var
  | aux a => a.name

/-- The two purposes are an indicator and a penalty of the same name. -/
inductive Clash : Purpose → Purpose → Prop
  | left {a b : Aux} (h : a.Clashes b) : Clash (.aux a) (.aux b)
  | right {a b : Aux} (h : a.Clashes b) : Clash (.aux b) (.aux a)

end Purpose

end Names

namespace Model

open Names

variable {m : Model}

/-- The purposes that variables are declared for on the way to an optimum. -/
inductive Needs (m : Model) : Purpose → Prop
  /-- A variable of the model. -/
  | own {x : Variable} (hx : x ∈ m.vars) : Needs m (.own x.name)
  /-- An indicator of a variable and one of its values. -/
  | indicator {x : Variable} {k : Int} (hx : x ∈ m.vars) (hk : k ∈ x.domain) :
    Needs m (.aux (.indicator x.name k))
  /-- The penalty of a soft constraint. -/
  | penalty {c : Constraint} (hc : c ∈ m.softConstraints) : Needs m (.aux (.penalty c.name))
  /-- What a soft equation falls short by. -/
  | deficit {c : Constraint} (hc : c ∈ m.softConstraints) : Needs m (.aux (.deficit c.name))
  /-- What a soft equation goes beyond by. -/
  | surplus {c : Constraint} (hc : c ∈ m.softConstraints) : Needs m (.aux (.surplus c.name))
  /-- The weighted sum of all penalties. -/
  | objective : Needs m (.aux .objective)
  /-- The sum of the penalties of a price. -/
  | tier (price : Nat) : Needs m (.aux (.tier price))
  /-- The sum of the penalties of the highest price. -/
  | heaviest : Needs m (.aux .heaviest)
  /-- The weighted sum of the penalties of the lower prices. -/
  | lighter : Needs m (.aux .lighter)
  /-- The sum of the penalties of one of the lower prices. -/
  | lighterTier (price : Nat) : Needs m (.aux (.lighterTier price))

/-- The auxiliary names that a model needs are named after its parts. -/
theorem WellFormed.named_of_needs (hm : m.WellFormed) {a : Aux} (h : m.Needs (.aux a)) :
    a.Named := by
  have hsoft : ∀ c ∈ m.softConstraints, Identifier.isValid c.name :=
    fun c hc => (hm.constraints c (mem_softConstraints.1 hc).1).name
  cases h with
  | indicator hx hk => exact hm.varNames _ hx
  | penalty hc => exact hsoft _ hc
  | deficit hc => exact hsoft _ hc
  | surplus hc => exact hsoft _ hc
  | objective | tier _ | heaviest | lighter | lighterTier _ => trivial

/-- The names of variables that a model needs are valid. -/
theorem WellFormed.isValid_of_needs (hm : m.WellFormed) {var : String} (h : m.Needs (.own var)) :
    Identifier.isValid var := by
  cases h with
  | own hx => exact hm.varNames _ hx

/-- The name of a variable of the model is not that of an auxiliary one. -/
theorem WellFormed.own_ne_aux (hm : m.WellFormed) {var : String} (h : m.Needs (.own var))
    (a : Aux) : var ≠ a.name := by
  intro heq
  have hvalid := hm.isValid_of_needs h
  rw [heq, Aux.not_isValid_name] at hvalid
  cases hvalid

/-- **Names and purposes.** Two purposes of a model have the same name if and only if they are the
same or clash. -/
theorem WellFormed.name_eq_name_iff (hm : m.WellFormed) {p q : Purpose} (hp : m.Needs p)
    (hq : m.Needs q) : p.name = q.name ↔ p = q ∨ p.Clash q := by
  constructor
  · intro h
    cases p with
    | own var =>
      cases q with
      | own var' => exact .inl (congrArg Purpose.own h)
      | aux b => exact absurd h (hm.own_ne_aux hp b)
    | aux a =>
      cases q with
      | own var => exact absurd h.symm (hm.own_ne_aux hq a)
      | aux b =>
        rcases (Aux.name_eq_iff (hm.named_of_needs hp) (hm.named_of_needs hq)).1 h with
          rfl | hclash | hclash
        · exact .inl rfl
        · exact .inr (.left hclash)
        · exact .inr (.right hclash)
  · rintro (rfl | ⟨h⟩ | ⟨h⟩)
    · rfl
    · exact h.name_eq
    · exact h.name_eq.symm

/-! ### What is declared -/

/-- The name has a purpose. -/
def Explains (m : Model) (name : String) : Prop := ∃ p : Purpose, m.Needs p ∧ p.name = name

/-- Every name that is declared has a purpose. -/
def ExplainsAll (m : Model) (es : List Expr) : Prop := ∀ name ∈ Expr.declaredBy es, m.Explains name

theorem explainsAll_append {es fs : List Expr} :
    m.ExplainsAll (es ++ fs) ↔ m.ExplainsAll es ∧ m.ExplainsAll fs := by
  rw [ExplainsAll, Expr.declaredBy_append, List.forall_mem_append]
  exact Iff.rfl

theorem explainsAll_cmp (name : String) (op : Comparator) (k : Int) :
    m.ExplainsAll [Expr.cmp name op k] := by
  intro n hn
  cases hn

/-- What is said of a variable is explained by the model. -/
theorem explainsAll_variableExprs {x : Variable} (hx : x ∈ m.vars) :
    m.ExplainsAll (Formulation.variableExprs x) := by
  intro name hname
  have hown : name ∈ m.ownNames := by
    obtain ⟨e, he, hdecl⟩ := Expr.mem_declaredBy.1 hname
    exact Expr.mem_declaredBy.2 ⟨e, List.mem_flatMap.2 ⟨x, hx, he⟩, hdecl⟩
  obtain ⟨y, hy, rfl | ⟨k, hk, rfl⟩⟩ := mem_ownNames hown
  · exact ⟨_, .own hy, rfl⟩
  · exact ⟨_, .indicator hy hk, rfl⟩

/-- What is said of a constraint is explained by the model. -/
theorem explainsAll_constraintExprs {c : Constraint} (hc : c ∈ m.constraints) :
    m.ExplainsAll (Formulation.constraintExprs c) := by
  intro name hname
  obtain ⟨hhard, hcases⟩ := Formulation.declaredBy_constraintExprs hname
  have hsoft : c ∈ m.softConstraints := by
    refine mem_softConstraints.2 ⟨hc, ?_⟩
    cases hweight : c.weight with
    | hard => exact absurd hweight hhard
    | soft price => exact ⟨price, rfl⟩
  rcases hcases with rfl | rfl | rfl
  · exact ⟨_, .penalty hsoft, rfl⟩
  · exact ⟨_, .deficit hsoft, rfl⟩
  · exact ⟨_, .surplus hsoft, rfl⟩

/-- The definition of a sum is explained where the model needs its name. -/
theorem explainsAll_sumDefinition {p : Purpose} (hp : m.Needs p) {parts : List Summand}
    {es : List Expr} (h : Formulation.sumDefinition p.name parts = .ok es) : m.ExplainsAll es := by
  intro name hname
  rw [Formulation.declaredBy_sumDefinition h, List.mem_singleton] at hname
  exact ⟨p, hp, hname.symm⟩

theorem explainsAll_tierSums {ps : List Penalty} {prices : List Nat} {es : List Expr}
    {parts : List Summand} (h : Formulation.tierSums ps prices = .ok (es, parts)) :
    m.ExplainsAll es := by
  induction prices generalizing es parts with
  | nil =>
    cases h
    intro name hname
    cases hname
  | cons price prices ih =>
    obtain ⟨own, others, rest, hown, hrest, rfl, -⟩ := Formulation.tierSums_cons_eq_ok h
    exact explainsAll_append.2 ⟨explainsAll_sumDefinition (.tier price) hown, ih hrest⟩

theorem explainsAll_objective {f : Formulation} {es : List Expr} (h : f.objective = .ok es) :
    m.ExplainsAll es := by
  obtain ⟨tiers, last, htiers, hlast, rfl⟩ := Formulation.objective_eq_ok h
  exact explainsAll_append.2
    ⟨explainsAll_tierSums htiers, explainsAll_sumDefinition .objective hlast⟩

theorem explainsAll_aggregate {p : Purpose} (hp : m.Needs p) {f : Formulation}
    {cs : List Constraint} {es : List Expr} {ub : Int} (h : f.aggregate p.name cs = .ok (es, ub)) :
    m.ExplainsAll es := by
  obtain ⟨ps, -, h₁⟩ := Checked.bind_eq_ok.1 h
  obtain ⟨bound, -, h₂⟩ := Checked.bind_eq_ok.1 h₁
  obtain ⟨exprs, hexprs, h₃⟩ := Checked.bind_eq_ok.1 h₂
  cases h₃
  exact explainsAll_sumDefinition hp (Checked.lift_eq_ok.1 hexprs)

end Model

end WeightedCsp

import WeightedCsp.Instance.OfModel
import WeightedCsp.Proofs.Formulation.Names
import WeightedCsp.Proofs.Instance.Entering
import WeightedCsp.Proofs.Model

/-!
# Instances charge what their models charge

The instance of a model has the same variables, over decimal labels, and the same constraints in
the same order.  Where the values are read as labels, a linear constraint is missed by exactly the
amount by which the constraint of the model is violated (`Instance.writeModel_represents`).

A linear term fans out over its domain, and of its parts the one for the value of the variable
remains.  A strict comparison is missed by as much as the weak one with the neighbouring constant.
The sum of a conflict counts the predicates that hold, less the negated ones: it stays below its
greatest value unless all predicates hold, and then it exceeds the constant by one.

The builders have checked the products of a linear constraint, so nothing but a neighbouring
constant can leave the machine range (`Body.NeighboursFit`).
-/

namespace WeightedCsp

/-! ### What a body becomes -/

namespace Comparator

/-- The relation and the constant that a comparison becomes. -/
def weakened : Comparator → Int → Relation × Int
  | eq, rhs => (.eq, rhs)
  | le, rhs => (.le, rhs)
  | lt, rhs => (.le, rhs - 1)
  | ge, rhs => (.ge, rhs)
  | gt, rhs => (.ge, rhs + 1)

/-- The constant next to that of a strict comparison fits. -/
def NeighbourFits : Comparator → Int → Prop
  | lt, rhs => Word.InRange (rhs - 1)
  | gt, rhs => Word.InRange (rhs + 1)
  | eq, _ | le, _ | ge, _ => True

/-- **Comparisons.** A strict comparison and the weak one are missed by the same amount. -/
theorem missedBy_weakened (op : Comparator) (lhs rhs : Int) :
    Instance.missedBy (op.weakened rhs).1 lhs (op.weakened rhs).2 = op.amount lhs rhs := by
  cases op <;> simp only [weakened, Instance.missedBy, amount] <;> omega

/-- A strict comparison is written as the next one that is not. -/
theorem weaken_eq_ok {op : Comparator} {rhs : Int} {p : Relation × Int} :
    Instance.Scribe.weaken op rhs = .ok p ↔ op.NeighbourFits rhs ∧ p = op.weakened rhs := by
  have hplain : ∀ q : Relation × Int, (pure q : Checked _) = .ok p ↔ True ∧ p = q := by
    intro q
    show Except.ok q = Except.ok p ↔ _
    simp [eq_comm]
  -- A strict comparison becomes a plain one with the neighbour of the constant, which must fit.
  have hneighbour : ∀ (t : Fault) (rel : Relation) (k : Int),
      (do return (rel, ← Word.fit t k) : Checked (Relation × Int)) = .ok p ↔
        Word.InRange k ∧ p = (rel, k) := by
    intro t rel k
    rw [Checked.bind_eq_ok]
    constructor
    · rintro ⟨k', hk, hp⟩
      obtain ⟨hin, rfl⟩ := Word.fit_eq_ok_iff.1 hk
      cases hp
      exact ⟨hin, rfl⟩
    · rintro ⟨hin, rfl⟩
      exact ⟨k, Word.fit_eq_ok_iff.2 ⟨hin, rfl⟩, rfl⟩
  cases op with
  | eq | le | ge => exact hplain _
  | lt | gt => exact hneighbour _ _ _

end Comparator

/-- The constants next to those of the body fit. -/
def Body.NeighboursFit : Body → Prop
  | .linear _ op rhs => op.NeighbourFits rhs
  | .pseudoBoolean _ op rhs => op.NeighbourFits rhs
  | .conflict terms => Word.InRange (terms.length - 1)
  | .allDifferent _ => True

namespace Instance

/-- The terms of a linear term, one for each value. -/
def spreadOf (t : LinearTerm) : List Term :=
  t.var.domain.values.map fun v => ⟨t.coeff * v, t.var.name, v.repr⟩

/-- The number of negated predicates. -/
def negated (terms : List Predicate) : Nat := (terms.filter fun t => !t.polarity).length

/-- The demand of a body, with all numbers as mathematical integers. -/
def demandFor : Body → Demand
  | .linear terms op rhs =>
    .linear (terms.flatMap spreadOf) (op.weakened rhs).1 (op.weakened rhs).2
  | .pseudoBoolean terms op rhs =>
    .linear (terms.map fun t => ⟨t.coeff, t.var.name, t.value.repr⟩) (op.weakened rhs).1
      (op.weakened rhs).2
  | .conflict terms =>
    .linear (terms.map fun t => ⟨if t.polarity then 1 else -1, t.var.name, t.value.repr⟩) .le
      (terms.length - 1 - negated terms)
  | .allDifferent vars => .allDifferent (vars.map (·.name))

/-- What a weight of a model means for an instance. -/
def priceFor : Weight → Price
  | .hard => .hard
  | .soft w => .soft w

/-- The constraint of an instance that stands for a constraint of a model. -/
def conFor (c : Constraint) : Con := ⟨c.name, priceFor c.weight, demandFor c.body⟩

/-! ### What is computed -/

/-- A term of a variable is written as one for each value. -/
theorem spread_eq_ok {t : LinearTerm}
    (h : ∀ v ∈ t.var.domain, Word.InRange (t.coeff * v)) : Scribe.spread t = .ok (spreadOf t) := by
  refine Checked.mapM_eq_ok fun v hv => ?_
  have hmul : Word.mul t.coeff v = .ok (t.coeff * v) := Word.fit_eq_ok_iff.2 ⟨h v hv, rfl⟩
  rw [hmul]
  rfl

/-- The builder of a linear constraint has checked its products. -/
theorem inRange_of_linearRange? {terms : List LinearTerm} {lo hi : Int} {r : Int × Int}
    (h : addRanges? (lo, hi) (terms.map (·.range?)) = some r) :
    ∀ t ∈ terms, ∀ v ∈ t.var.domain, Word.InRange (t.coeff * v) := by
  induction terms generalizing lo hi with
  | nil => simp
  | cons t terms ih =>
    rw [List.map_cons] at h
    cases hrange : t.range? with
    | none =>
      rw [hrange] at h
      cases h
    | some p =>
      obtain ⟨a, b⟩ := p
      rw [hrange] at h
      refine List.forall_mem_cons.2 ⟨fun v hv => ?_, ih (addRanges?_cons h).2.2⟩
      exact (LinearTerm.range?_bounds hrange hv).2.2

/-- The products that are written fit. -/
theorem inRange_products {c : Constraint} (hc : c.WellFormed) {terms : List LinearTerm}
    {op : Comparator} {rhs : Int} (h : c.body = .linear terms op rhs) :
    ∀ t ∈ terms, ∀ v ∈ t.var.domain, Word.InRange (t.coeff * v) := by
  have hbody := hc.body
  rw [h] at hbody
  cases hrange : linearRange? terms with
  | none =>
    simp only [hrange] at hbody
    cases hbody
  | some r => exact inRange_of_linearRange? hrange

theorem negated_le_length (terms : List Predicate) : negated terms ≤ terms.length :=
  List.length_filter_le _ _

theorem weaken_bind_eq_ok {op : Comparator} {rhs : Int} {terms : List Term} {d : Demand} :
    (do
      let p ← Scribe.weaken op rhs
      return .linear terms p.1 p.2 : Checked Demand) = .ok d ↔
        op.NeighbourFits rhs ∧ d = .linear terms (op.weakened rhs).1 (op.weakened rhs).2 := by
  rw [Checked.bind_eq_ok]
  constructor
  · rintro ⟨p, hp, hd⟩
    obtain ⟨hfits, rfl⟩ := Comparator.weaken_eq_ok.1 hp
    cases hd
    exact ⟨hfits, rfl⟩
  · rintro ⟨hfits, rfl⟩
    exact ⟨_, Comparator.weaken_eq_ok.2 ⟨hfits, rfl⟩, rfl⟩

/-- **Demands.** Nothing but a neighbouring constant can leave the machine range. -/
theorem demandOf_eq_ok {c : Constraint} (hc : c.WellFormed) {d : Demand} :
    Scribe.demandOf c.body = .ok d ↔ c.body.NeighboursFit ∧ d = demandFor c.body := by
  obtain ⟨name, weight, body⟩ := c
  cases body with
  | linear terms op rhs =>
    have hspread : terms.mapM Scribe.spread = .ok (terms.map spreadOf) :=
      Checked.mapM_eq_ok fun t ht => spread_eq_ok (inRange_products hc rfl t ht)
    show (do
      let p ← Scribe.weaken op rhs
      return .linear (← terms.mapM Scribe.spread).flatten p.1 p.2 : Checked Demand) = _ ↔ _
    rw [hspread]
    exact weaken_bind_eq_ok
  | pseudoBoolean terms op rhs => exact weaken_bind_eq_ok
  | conflict terms =>
    -- The number of negated predicates is small, so only the first difference matters.
    have hnegated := negated_le_length terms
    show (do
      let n ← Word.sub terms.length 1
      let rhs ← Word.sub n (negated terms)
      return .linear _ .le rhs : Checked Demand) = _ ↔ _
    rw [Checked.bind_eq_ok]
    constructor
    · rintro ⟨n, hn, h₁⟩
      obtain ⟨rhs, hrhs, hd⟩ := Checked.bind_eq_ok.1 h₁
      obtain ⟨hfits, rfl⟩ := Word.fit_eq_ok_iff.1 hn
      obtain ⟨-, rfl⟩ := Word.fit_eq_ok_iff.1 hrhs
      cases hd
      exact ⟨hfits, rfl⟩
    · rintro ⟨hfits, rfl⟩
      have hlast : Word.InRange ((terms.length : Int) - 1 - negated terms) := by
        have hfirst : Word.InRange ((terms.length : Int) - 1) := hfits
        unfold Word.InRange Word.least at *
        omega
      exact ⟨_, Word.fit_eq_ok_iff.2 ⟨hfits, rfl⟩,
        Checked.bind_eq_ok.2 ⟨_, Word.fit_eq_ok_iff.2 ⟨hlast, rfl⟩, rfl⟩⟩
  | allDifferent vars =>
    show Except.ok _ = Except.ok d ↔ _
    simp [Body.NeighboursFit, demandFor, eq_comm]

/-- The number of a weight is read back as the weight. -/
theorem ofModel_toInt (w : Weight) : Price.ofModel w.toInt = priceFor w := by
  cases w with
  | hard => rfl
  | soft w =>
    rw [Price.ofModel, Weight.toInt, if_neg (by omega)]
    rfl

/-- A constraint is written, unless the neighbour of its bound does not fit. -/
theorem conOf_eq_ok {c : Constraint} (hc : c.WellFormed) {k : Con} :
    Scribe.conOf c = .ok k ↔ c.body.NeighboursFit ∧ k = conFor c := by
  unfold Scribe.conOf
  rw [Checked.bind_eq_ok]
  constructor
  · rintro ⟨d, hd, hk⟩
    obtain ⟨hfits, rfl⟩ := (demandOf_eq_ok hc).1 hd
    cases hk
    exact ⟨hfits, by rw [ofModel_toInt, conFor]⟩
  · rintro ⟨hfits, rfl⟩
    refine ⟨_, (demandOf_eq_ok hc).2 ⟨hfits, rfl⟩, ?_⟩
    rw [ofModel_toInt]
    rfl

/-! ### Charges -/

section Totals

variable {value : String → Int}

/-- Every variable takes its value as a label. -/
def labels (value : String → Int) (name : String) : String := (value name).repr

theorem repr_eq_repr {j k : Int} : j.repr = k.repr ↔ j = k :=
  ⟨fun h => Names.repr_injective (congrArg String.toList h), congrArg Int.repr⟩

theorem total_cons (label : String → String) (t : Term) (ts : List Term) :
    total label (t :: ts) = (if label t.var = t.label then t.coeff else 0) + total label ts := rfl

theorem total_append (label : String → String) (ts us : List Term) :
    total label (ts ++ us) = total label ts + total label us := by
  induction ts with
  | nil => simp [total]
  | cons t ts ih => rw [List.cons_append, total_cons, total_cons, ih, Int.add_assoc]

/-- A term that asks for a value. -/
theorem total_value_cons (c k : Int) (name : String) (ts : List Term) :
    total (labels value) (⟨c, name, k.repr⟩ :: ts) =
      (if value name = k then c else 0) + total (labels value) ts := by
  rw [total_cons]
  simp only [labels, repr_eq_repr]

/-- Of the parts of a linear term the one for the value of the variable remains. -/
theorem total_spread (c : Int) (name : String) {vs : List Int} (hnodup : vs.Nodup) :
    total (labels value) (vs.map fun v => ⟨c * v, name, v.repr⟩) =
      if value name ∈ vs then c * value name else 0 := by
  induction vs with
  | nil => rfl
  | cons v vs ih =>
    obtain ⟨hnew, hrest⟩ := List.nodup_cons.1 hnodup
    rw [List.map_cons, total_value_cons, ih hrest]
    by_cases heq : value name = v
    · -- The values differ, so no later part has this label.
      simp [heq, hnew]
    · simp [heq]

/-- The terms for all values sum up to the term of the variable. -/
theorem total_linear {terms : List LinearTerm} (hin : InDomains value (terms.map (·.var))) :
    total (labels value) (terms.flatMap spreadOf) = linearTotal value terms := by
  induction terms with
  | nil => rfl
  | cons t terms ih =>
    obtain ⟨ht, hrest⟩ := InDomains.cons_iff.1 hin
    have hnodup : t.var.domain.values.Nodup := t.var.domain.ascending.imp fun h => Int.ne_of_lt h
    have hhead : total (labels value) (spreadOf t) = t.coeff * value t.var.name := by
      rw [spreadOf, total_spread _ _ hnodup]
      exact if_pos ht
    rw [List.flatMap_cons, total_append, ih hrest, hhead]
    rfl

/-- Indicators sum up to what they sum up to in the model. -/
theorem total_pseudoBoolean (terms : List IndicatorTerm) :
    total (labels value) (terms.map fun t => ⟨t.coeff, t.var.name, t.value.repr⟩) =
      indicatorTotal value terms := by
  induction terms with
  | nil => rfl
  | cons t terms ih =>
    rw [List.map_cons, total_value_cons, ih]
    rfl

/-- The predicate of a term: the variable takes the label (coefficient one), or it does not. -/
def Term.Met (label : String → String) (t : Term) : Prop := label t.var = t.label ↔ t.coeff = 1

/-- The coefficient marks a predicate or a negated one. -/
def Term.Signed (t : Term) : Prop := t.coeff = 1 ∨ t.coeff = -1

/-- The number of negated predicates. -/
def negatedTerms (terms : List Term) : Nat := terms.countP (·.coeff = -1)

/-- **Sums of predicates.** The sum is least where no predicate holds, and greatest exactly where
all of them do. -/
theorem total_signed (label : String → String) {terms : List Term}
    (h : ∀ t ∈ terms, t.Signed) :
    -(negatedTerms terms : Int) ≤ total label terms ∧
      total label terms ≤ terms.length - negatedTerms terms ∧
      (total label terms = terms.length - negatedTerms terms ↔ ∀ t ∈ terms, t.Met label) := by
  induction terms with
  | nil => simp [total, negatedTerms]
  | cons t terms ih =>
    obtain ⟨ht, hrest⟩ := List.forall_mem_cons.1 h
    obtain ⟨hleast, hgreatest, hiff⟩ := ih hrest
    rw [List.forall_mem_cons, ← hiff, total_cons, List.length_cons, negatedTerms, List.countP_cons,
      ← negatedTerms, Term.Met]
    -- A predicate adds one to the greatest sum, less one if it is negated, and reaches this where
    -- it holds.
    rcases ht with hone | hminus
    · rw [hone]
      by_cases htaken : label t.var = t.label <;> simp [htaken] <;> omega
    · rw [hminus]
      by_cases htaken : label t.var = t.label <;> simp [htaken] <;> omega

/-- The term of a predicate of a conflict. -/
def predicateTerm (t : Predicate) : Term :=
  ⟨if t.polarity then 1 else -1, t.var.name, t.value.repr⟩

theorem signed_predicateTerm (t : Predicate) : (predicateTerm t).Signed := by
  unfold predicateTerm Term.Signed
  cases t.polarity <;> simp

/-- A predicate is met where its term is. -/
theorem met_predicateTerm {t : Predicate} :
    (predicateTerm t).Met (labels value) ↔ t.Holds value := by
  show ((value t.var.name).repr = t.value.repr ↔ (if t.polarity then (1 : Int) else -1) = 1) ↔ _
  rw [repr_eq_repr, Predicate.Holds]
  cases t.polarity <;> simp

theorem negatedTerms_map (terms : List Predicate) :
    negatedTerms (terms.map predicateTerm) = negated terms := by
  rw [negatedTerms, List.countP_map, negated, ← List.countP_eq_length_filter]
  refine List.countP_congr fun t _ => ?_
  show decide ((if t.polarity then (1 : Int) else -1) = -1) = true ↔ (!t.polarity) = true
  cases t.polarity <;> simp

/-- The sum of a conflict has its greatest value exactly where all predicates hold. -/
theorem total_conflict (value : String → Int) (terms : List Predicate) :
    let sum := total (labels value)
      (terms.map fun t => ⟨if t.polarity then 1 else -1, t.var.name, t.value.repr⟩)
    sum ≤ terms.length - negated terms ∧
      (sum = terms.length - negated terms ↔ ∀ t ∈ terms, t.Holds value) := by
  have hsigned : ∀ t ∈ terms.map predicateTerm, t.Signed :=
    List.forall_mem_map.2 fun t _ => signed_predicateTerm t
  obtain ⟨-, hle, hiff⟩ := total_signed (labels value) hsigned
  rw [List.length_map, negatedTerms_map] at hle hiff
  refine ⟨hle, hiff.trans ?_⟩
  rw [List.forall_mem_map]
  exact forall₂_congr fun t _ => met_predicateTerm

/-- **Charges.** A linear demand is missed by the violation of the constraint. -/
theorem missedBy_demandFor {c : Constraint} (hin : InDomains value c.vars) {terms : List Term}
    {rel : Relation} {rhs : Int} (h : demandFor c.body = .linear terms rel rhs) :
    missedBy rel (total (labels value) terms) rhs = c.amount value := by
  obtain ⟨name, weight, body⟩ := c
  cases body with
  | linear ts op k =>
    cases h
    rw [Comparator.missedBy_weakened, total_linear hin]
    rfl
  | pseudoBoolean ts op k =>
    cases h
    rw [Comparator.missedBy_weakened, total_pseudoBoolean]
    rfl
  | conflict ts =>
    cases h
    -- The sum passes its bound by one exactly if all predicates hold.
    obtain ⟨hle, hiff⟩ := total_conflict value ts
    have hamount : Constraint.amount value ⟨name, weight, .conflict ts⟩ =
        if ∀ t ∈ ts, t.Holds value then 1 else 0 := rfl
    rw [hamount]
    simp only [← hiff, missedBy]
    split <;> omega
  | allDifferent xs => cases h

end Totals

/-- The demand charges every assignment of the model what the constraint charges; variables that
have to differ stay what they are. -/
def Charges (m : Model) (c : Constraint) : Demand → Prop
  | .linear terms rel rhs => (∀ xs, c.body ≠ .allDifferent xs) ∧
    ∀ (value : String → Int) (a : Assignment), InDomains value m.vars →
      (∀ x ∈ m.vars, a x.name = some (value x.name)) →
      c.violation a = .ok (missedBy rel (total (labels value) terms) rhs)
  | .allDifferent names => ∃ xs, c.body = .allDifferent xs ∧ names = xs.map (·.name)

/-- What is written charges what the constraint charges. -/
theorem charges_demandFor {m : Model} (hm : m.WellFormed) {c : Constraint}
    (hc : c ∈ m.constraints) : Charges m c (demandFor c.body) := by
  cases hd : demandFor c.body with
  | linear terms rel rhs =>
    refine ⟨fun xs hbody => ?_, fun value a hin ha => ?_⟩
    · rw [hbody] at hd
      cases hd
    · -- The violation depends on the variables of the constraint, and these have values.
      have hdeclared := hm.declared c hc
      have hsame : c.violation a = c.violation (.of value) :=
        Constraint.violation_congr fun x hx => ha x (hdeclared x hx)
      rw [hsame, hm.violation_eq_ok hin hc,
        missedBy_demandFor (fun x hx => hin x (hdeclared x hx)) hd]
  | allDifferent names =>
    cases hbody : c.body with
    | allDifferent xs =>
      rw [hbody] at hd
      cases hd
      exact ⟨xs, hbody, rfl⟩
    | linear | pseudoBoolean | conflict =>
      rw [hbody] at hd
      cases hd

/-! ### Writing a model -/

section Writing

variable {i j : Instance} {s t : Scribe} {x : Variable} {xs : List Variable} {c : Constraint}
  {cs : List Constraint} {ks : List Con}

theorem writeVariable_new (h : x.name ∉ s.vars.map (·.name)) :
    Scribe.writeVariable x s = .ok (Scribe.varOf x) { s with vars := s.vars ++ [x] } := by
  unfold Scribe.writeVariable
  rw [find?_key_eq_none h]

/-- Variables that are known are not written again. -/
theorem writeVariables_known (hnodup : (s.vars.map (·.name)).Nodup) (h : ∀ x ∈ xs, x ∈ s.vars) :
    Scribe.writeVariables xs s = .ok () s := by
  induction xs with
  | nil => rfl
  | cons x xs ih =>
    obtain ⟨hx, hxs⟩ := List.forall_mem_cons.1 h
    have hwrite : Scribe.writeVariable x s = .ok (Scribe.varOf x) s := by
      unfold Scribe.writeVariable
      rw [find?_key hnodup hx]
      exact if_pos rfl
    exact Step.bind_eq_ok.2 ⟨_, _, hwrite, ih hxs⟩

theorem map_name_varOf (xs : List Variable) :
    (xs.map Scribe.varOf).map (·.name) = xs.map (·.name) := by
  rw [List.map_map]
  rfl

/-- An entry that is made. -/
theorem entering_eq_ok {x : Entering Unit} : Scribe.entering x i = .ok j ↔ x i = .ok () j :=
  Step.build_eq_ok.trans Step.mapError_eq_ok

/-- **Variables** are entered in order. -/
theorem enterVariables_eq_ok (ks : List Con) (hnodup : ((s.vars ++ xs).map (·.name)).Nodup)
    (hks : (ks.map (·.name)).Nodup) :
    Scribe.enterVariables (.ofLists (s.vars.map Scribe.varOf) ks) xs s =
      .ok (.ofLists ((s.vars ++ xs).map Scribe.varOf) ks) { s with vars := s.vars ++ xs } := by
  induction xs generalizing s with
  | nil => simp [Scribe.enterVariables]
  | cons x xs ih =>
    have hnew : x.name ∉ s.vars.map (·.name) := notMem_of_nodup_append hnodup
    have hold : ((s.vars.map Scribe.varOf).map (·.name)).Nodup := by
      rw [List.map_append] at hnodup
      rw [map_name_varOf]
      exact (List.nodup_append.1 hnodup).1
    have hentered : addVar (Scribe.varOf x) (.ofLists (s.vars.map Scribe.varOf) ks) =
        .ok () (.ofLists ((s.vars ++ [x]).map Scribe.varOf) ks) := by
      refine (indexed_ofLists hold hks).addVar_eq_ok_iff.2 ⟨?_, ?_⟩
      · show x.name ∉ _
        rw [ofLists, map_name_varOf]
        exact hnew
      · rw [withVar_ofLists, List.map_append, List.map_singleton]
    rw [List.append_cons] at hnodup ⊢
    have hrest := ih (s := { s with vars := s.vars ++ [x] }) hnodup
    exact Step.bind_eq_ok.2 ⟨_, _, writeVariable_new hnew, Step.bind_eq_ok.2
      ⟨_, _, Step.except_eq_ok.2 ⟨entering_eq_ok.2 hentered, rfl⟩, hrest⟩⟩

/-- A new constraint is written, unless the neighbour of its bound does not fit. -/
theorem writeConstraint_eq_ok (hc : c.WellFormed) (hnew : c.name ∉ s.constraints.map (·.name))
    (hnodup : (s.vars.map (·.name)).Nodup) (hvars : ∀ x ∈ c.vars, x ∈ s.vars) {k : Con} :
    Scribe.writeConstraint c s = .ok k t ↔ c.body.NeighboursFit ∧ k = conFor c ∧
      t = { s with constraints := s.constraints ++ [c] } := by
  have hwrite : Scribe.writeConstraint c s = (do
      Scribe.writeVariables c.vars
      let con ← (Scribe.conOf c : Checked Con)
      modify fun s => { s with constraints := s.constraints ++ [c] }
      return con : Writing Con) s := by
    rw [Scribe.writeConstraint, Step.get_bind_apply, find?_key_eq_none hnew]
  rw [hwrite, Step.bind_eq_ok]
  constructor
  · rintro ⟨u, s₁, hknown, h₁⟩
    cases (writeVariables_known hnodup hvars).symm.trans hknown
    obtain ⟨con, s₂, hcon, h₂⟩ := Step.bind_eq_ok.1 h₁
    obtain ⟨hok, rfl⟩ := Step.checked_eq_ok.1 hcon
    obtain ⟨hfits, rfl⟩ := (conOf_eq_ok hc).1 hok
    cases h₂
    exact ⟨hfits, rfl, rfl⟩
  · rintro ⟨hfits, rfl, rfl⟩
    exact ⟨(), s, writeVariables_known hnodup hvars, Step.bind_eq_ok.2
      ⟨conFor c, s, Step.checked_eq_ok.2 ⟨(conOf_eq_ok hc).2 ⟨hfits, rfl⟩, rfl⟩, rfl⟩⟩

theorem varNames_conFor (c : Constraint) : ∀ n ∈ (conFor c).varNames, n ∈ c.vars.map (·.name) := by
  obtain ⟨name, weight, body⟩ := c
  cases body with
  | linear terms op rhs =>
    intro n hn
    obtain ⟨u, hu, rfl⟩ := List.mem_map.1 hn
    obtain ⟨t, ht, hut⟩ := List.mem_flatMap.1 hu
    obtain ⟨v, -, rfl⟩ := List.mem_map.1 hut
    exact List.mem_map_of_mem (List.mem_map_of_mem ht)
  | pseudoBoolean terms op rhs | conflict terms =>
    intro n hn
    obtain ⟨u, hu, rfl⟩ := List.mem_map.1 hn
    obtain ⟨t, ht, rfl⟩ := List.mem_map.1 hu
    exact List.mem_map_of_mem (List.mem_map_of_mem ht)
  | allDifferent xs => exact fun n hn => hn

theorem map_name_conFor (cs : List Constraint) :
    (cs.map conFor).map (·.name) = cs.map (·.name) := by
  rw [List.map_map]
  rfl

/-- An instance that has the variables takes a constraint of a new name. -/
theorem addCon_conFor (hvars : (s.vars.map (·.name)).Nodup)
    (hcons : (s.constraints.map (·.name)).Nodup) (hnew : c.name ∉ s.constraints.map (·.name))
    (hdeclared : ∀ x ∈ c.vars, x ∈ s.vars) :
    addCon (conFor c) (.ofLists (s.vars.map Scribe.varOf) (s.constraints.map conFor)) =
      .ok () (.ofLists (s.vars.map Scribe.varOf) ((s.constraints ++ [c]).map conFor)) := by
  rw [← map_name_varOf] at hvars
  rw [← map_name_conFor] at hcons hnew
  refine (indexed_ofLists hvars hcons).addCon_eq_ok_iff.2 ⟨hnew, fun n hn => ?_, ?_⟩
  · show n ∈ (s.vars.map Scribe.varOf).map (·.name)
    rw [map_name_varOf]
    obtain ⟨x, hx, rfl⟩ := List.mem_map.1 (varNames_conFor c n hn)
    exact List.mem_map_of_mem (hdeclared x hx)
  · rw [withCon_ofLists, List.map_append, List.map_singleton]

/-- **Constraints** are entered in order, unless a neighbouring constant does not fit. -/
theorem enterConstraints_eq_ok (hcs : ∀ c ∈ cs, c.WellFormed ∧ ∀ x ∈ c.vars, x ∈ s.vars)
    (hvars : (s.vars.map (·.name)).Nodup) (hnodup : ((s.constraints ++ cs).map (·.name)).Nodup) :
    Scribe.enterConstraints (.ofLists (s.vars.map Scribe.varOf) (s.constraints.map conFor)) cs s =
        .ok j t ↔
      (∀ c ∈ cs, c.body.NeighboursFit) ∧
        j = .ofLists (s.vars.map Scribe.varOf) ((s.constraints ++ cs).map conFor) ∧
        t = { s with constraints := s.constraints ++ cs } := by
  induction cs generalizing s with
  | nil =>
    show EStateM.Result.ok _ s = .ok j t ↔ _
    simp [eq_comm]
  | cons c cs ih =>
    -- The scribe knows the variables, and the instance has them, so an entry cannot be refused.
    obtain ⟨⟨hc, hdeclared⟩, hrest⟩ := List.forall_mem_cons.1 hcs
    have hnew : c.name ∉ s.constraints.map (·.name) := notMem_of_nodup_append hnodup
    have hcons : (s.constraints.map (·.name)).Nodup := by
      rw [List.map_append] at hnodup
      exact (List.nodup_append.1 hnodup).1
    have hentered := addCon_conFor hvars hcons hnew hdeclared
    rw [List.append_cons] at hnodup ⊢
    have hnext := ih (s := { s with constraints := s.constraints ++ [c] }) hrest hvars hnodup
    have hwrite := fun k t => writeConstraint_eq_ok (k := k) (t := t) hc hnew hvars hdeclared
    rw [List.forall_mem_cons, Scribe.enterConstraints, Step.bind_eq_ok]
    constructor
    · rintro ⟨k, s₁, hk, h₁⟩
      obtain ⟨hfits, rfl, rfl⟩ := (hwrite k s₁).1 hk
      obtain ⟨i₁, s₂, hi₁, h₂⟩ := Step.bind_eq_ok.1 h₁
      obtain ⟨hok, rfl⟩ := Step.except_eq_ok.1 hi₁
      cases hentered.symm.trans (entering_eq_ok.1 hok)
      obtain ⟨hall, rfl, rfl⟩ := hnext.1 h₂
      exact ⟨⟨hfits, hall⟩, rfl, rfl⟩
    · rintro ⟨⟨hfits, hall⟩, rfl, rfl⟩
      exact ⟨conFor c, _, (hwrite _ _).2 ⟨hfits, rfl, rfl⟩, Step.bind_eq_ok.2 ⟨_, _,
        Step.except_eq_ok.2 ⟨entering_eq_ok.2 hentered, rfl⟩, hnext.2 ⟨hall, rfl, rfl⟩⟩⟩

/-- The instance of a model, if no number of it leaves the machine range. -/
theorem writeModel_eq_ok {m : Model} (hm : m.WellFormed) :
    Scribe.writeModel m .start = .ok i t ↔ (∀ c ∈ m.constraints, c.body.NeighboursFit) ∧
      i = .ofLists (m.vars.map Scribe.varOf) (m.constraints.map conFor) ∧
      t = ⟨m.vars, m.constraints, 0⟩ := by
  have hvars := enterVariables_eq_ok (s := .start) [] hm.varsNodup List.nodup_nil
  have hcons := enterConstraints_eq_ok (j := i) (s := ⟨m.vars, [], 0⟩) (t := t)
    (fun c hc => ⟨hm.constraints c hc, hm.declared c hc⟩) hm.varsNodup hm.constraintsNodup
  refine Iff.trans ?_ hcons
  unfold Scribe.writeModel
  rw [Step.bind_eq_ok]
  constructor
  · rintro ⟨j, s, hj, h⟩
    cases hvars.symm.trans hj
    exact h
  · exact fun h => ⟨_, _, hvars, h⟩

end Writing

/-- An instance that says what the model says, in its own terms. -/
structure Represents (m : Model) (i : Instance) : Prop where
  /-- The variables are those of the model, with their values in decimal. -/
  vars : i.vars = m.vars.map fun x => ⟨x.name, x.domain.values.map Int.repr⟩
  /-- The constraints are those of the model, and charge the same. -/
  constraints : List.Forall₂
    (fun c k => k.name = c.name ∧ k.weight = priceFor c.weight ∧ Charges m c k.demand)
    m.constraints i.constraints

/-- **Instances.** A model is written exactly if no constant that is shifted leaves the machine
range, and its instance charges every assignment what the model charges. -/
theorem writeModel_represents {m : Model} (hm : m.Built) :
    ((∃ i s, Scribe.writeModel m .start = .ok i s) ↔
      ∀ c ∈ m.constraints, c.body.NeighboursFit) ∧
    ∀ i s, Scribe.writeModel m .start = .ok i s → Represents m i := by
  have hform := hm.wellFormed
  refine ⟨?_, fun i s h => ?_⟩
  · constructor
    · rintro ⟨i, s, h⟩
      exact ((writeModel_eq_ok hform).1 h).1
    · exact fun h => ⟨_, _, (writeModel_eq_ok hform).2 ⟨h, rfl, rfl⟩⟩
  · obtain ⟨-, rfl, -⟩ := (writeModel_eq_ok hform).1 h
    refine ⟨rfl, List.forall₂_map_right_iff.2 (List.forall₂_same.2 fun c hc => ⟨rfl, rfl, ?_⟩)⟩
    exact charges_demandFor hform hc

/-- The instance of a small model. -/
theorem writeModel_represents_sample : ∃ i s,
    Scribe.writeModel Model.Sample.model .start = .ok i s ∧ Represents Model.Sample.model i ∧
    (∀ c ∈ Model.Sample.model.constraints, c.body.NeighboursFit) ∧
    i.vars = [⟨"x", ["0", "2"]⟩, ⟨"y", ["0", "1"]⟩] ∧
    i.constraints =
      [⟨"apart", .hard, .linear [⟨1, "x", "2"⟩, ⟨1, "y", "1"⟩] .le 1⟩,
       ⟨"level", .soft 3,
        .linear [⟨0, "x", "0"⟩, ⟨2, "x", "2"⟩, ⟨0, "y", "0"⟩, ⟨1, "y", "1"⟩] .eq 1⟩,
       ⟨"high", .soft 1, .linear [⟨1, "x", "0"⟩] .le 0⟩] := by
  have hrep := writeModel_represents Model.Sample.built_model
  have hrun : ∃ i s, Scribe.writeModel Model.Sample.model .start = .ok i s := ⟨_, _, rfl⟩
  have hfits := hrep.1.1 hrun
  exact ⟨_, _, rfl, hrep.2 _ _ rfl, hfits, by decide, by decide⟩

end Instance

end WeightedCsp

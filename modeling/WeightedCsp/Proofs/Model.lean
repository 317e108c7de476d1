import Mathlib.Algebra.BigOperators.Group.List.Basic
import Mathlib.Data.List.Induction
import Mathlib.Data.List.Lex
import Mathlib.Data.List.Nodup
import WeightedCsp.Model
import WeightedCsp.Proofs.Constraint.Violation
import WeightedCsp.Proofs.Places
import WeightedCsp.Proofs.Step

/-!
# Models that can be built

A model comes about by registering variables and constraints that were built (`Model.Built`).  Its
names are identifiers, each given once, and its constraints speak of its own variables
(`Model.WellFormed`).  An assignment is feasible if it respects the domains and violates no hard
constraint; what it costs is the weighted sum of the violations of the soft ones.
-/

namespace WeightedCsp

/-- The price of a unit of violation; nothing for a constraint that has to hold. -/
def Weight.price : Weight → Nat
  | .hard => 0
  | .soft w => w

namespace Model

/-- The variable with a name. -/
def findVariable? (m : Model) (name : String) : Option Variable := m.vars.find? (·.name = name)

/-- The constraint with a name. -/
def findConstraint? (m : Model) (name : String) : Option Constraint :=
  m.constraints.find? (·.name = name)

/-- Both tables of places are in step with the entries. -/
structure Indexed (m : Model) : Prop where
  varPlaces : m.varPlaces.Indexes (m.vars.map (·.name))
  constraintPlaces : m.constraintPlaces.Indexes (m.constraints.map (·.name))

/-- A model that was put together entry by entry. -/
inductive Built : Model → Prop
  | empty : Built Model.empty
  | addVariable {m m' : Model} {name : String} {domain : Domain} {x : Variable} (hm : Built m)
    (hx : Variable.new name domain = .ok x) (h : Model.addVariable x m = .ok () m') : Built m'
  | addConstraint {m m' : Model} {c : Constraint} (hm : Built m) (hc : c.Built)
    (h : Model.addConstraint c m = .ok () m') : Built m'

/-- Names are identifiers and given once, with tables that are in step, and constraints speak of
variables of the model. -/
structure WellFormed (m : Model) : Prop extends m.Indexed where
  /-- Variables have identifiers as names. -/
  varNames : ∀ x ∈ m.vars, Identifier.isValid x.name
  /-- The constraints passed the checks of their builders. -/
  constraints : ∀ c ∈ m.constraints, c.WellFormed
  /-- Constraints speak of variables of the model. -/
  declared : ∀ c ∈ m.constraints, ∀ x ∈ c.vars, x ∈ m.vars

/-! ### Tables in step -/

section Tables

variable {m : Model} {x : Variable} {c : Constraint}

theorem indexed_empty : empty.Indexed := ⟨Places.indexes_nil, Places.indexes_nil⟩

namespace Indexed

/-- No two variables have the same name. -/
theorem varsNodup (hm : m.Indexed) : (m.vars.map (·.name)).Nodup := hm.varPlaces.nodup

/-- No two constraints have the same name. -/
theorem constraintsNodup (hm : m.Indexed) : (m.constraints.map (·.name)).Nodup :=
  hm.constraintPlaces.nodup

/-- A variable is found by its place as it is by its name. -/
theorem lookupVariable_eq (hm : m.Indexed) (name : String) :
    m.lookupVariable name = .ok (m.findVariable? name) := hm.varPlaces.find_eq name

/-- A constraint is found by its place as it is by its name. -/
theorem lookupConstraint_eq (hm : m.Indexed) (name : String) :
    m.lookupConstraint name = .ok (m.findConstraint? name) := hm.constraintPlaces.find_eq name

/-- A new variable goes to the end, and its place with it. -/
theorem withVariable (hm : m.Indexed) (hnew : x.name ∉ m.vars.map (·.name)) :
    (m.withVariable x).Indexed := by
  refine ⟨?_, hm.constraintPlaces⟩
  have htable := hm.varPlaces.concat hnew
  rw [List.length_map] at htable
  simpa only [Model.withVariable, List.map_append, List.map_singleton] using htable

/-- A new constraint goes to the end, and its place with it. -/
theorem withConstraint (hm : m.Indexed) (hnew : c.name ∉ m.constraints.map (·.name)) :
    (m.withConstraint c).Indexed := by
  refine ⟨hm.varPlaces, ?_⟩
  have htable := hm.constraintPlaces.concat hnew
  rw [List.length_map] at htable
  simpa only [Model.withConstraint, List.map_append, List.map_singleton] using htable

end Indexed

theorem withVariable_ofLists (xs : List Variable) (cs : List Constraint) (x : Variable) :
    (ofLists xs cs).withVariable x = ofLists (xs ++ [x]) cs := by
  simp [ofLists, Model.withVariable, Places.ofNames_concat]

theorem withConstraint_ofLists (xs : List Variable) (cs : List Constraint) (c : Constraint) :
    (ofLists xs cs).withConstraint c = ofLists xs (cs ++ [c]) := by
  simp [ofLists, Model.withConstraint, Places.ofNames_concat]

/-- Names that are given once have tables. -/
theorem indexed_ofLists {xs : List Variable} {cs : List Constraint}
    (hxs : (xs.map (·.name)).Nodup) (hcs : (cs.map (·.name)).Nodup) : (ofLists xs cs).Indexed :=
  ⟨Places.indexes_ofNames hxs, Places.indexes_ofNames hcs⟩

end Tables

/-! ### Registering -/

section Registering

variable {m m' : Model} {x : Variable} {c : Constraint}

theorem addVariable_apply (x : Variable) (m : Model) :
    addVariable x m =
      if m.varPlaces.contains x.name then .error (.error (.duplicateVariable x.name)) m
      else .ok () (m.withVariable x) := by
  unfold addVariable
  rw [Step.get_bind_apply]
  split_ifs <;> rfl

/-- A variable is entered if its name is new. -/
theorem Indexed.addVariable_apply (hm : m.Indexed) (x : Variable) :
    addVariable x m =
      if x.name ∈ m.vars.map (·.name) then .error (.error (.duplicateVariable x.name)) m
      else .ok () (m.withVariable x) := by
  rw [Model.addVariable_apply]
  exact if_congr hm.varPlaces.contains_iff rfl rfl

/-- A variable is built and registered if its name is an identifier and new. -/
theorem Indexed.newVariable_apply (hm : m.Indexed) (name : String) (domain : Domain) :
    newVariable name domain m =
      if Identifier.isValid name then
        if name ∈ m.vars.map (·.name) then .error (.error (.duplicateVariable name)) m
        else .ok ⟨name, domain⟩ (m.withVariable ⟨name, domain⟩)
      else .error (.error (.invalidName name)) m := by
  by_cases hvalid : Identifier.isValid name
  · have hnew : Variable.new name domain = .ok ⟨name, domain⟩ := by
      rw [Variable.new, Identifier.check, if_pos hvalid]
      rfl
    rw [if_pos hvalid, newVariable, hnew]
    show EStateM.bind (addVariable ⟨name, domain⟩) _ m = _
    rw [EStateM.bind, hm.addVariable_apply]
    dsimp only
    split_ifs <;> rfl
  · have hnew : Variable.new name domain = .error (.invalidName name) := by
      rw [Variable.new, Identifier.check, if_neg hvalid]
      rfl
    rw [if_neg hvalid, newVariable, hnew]
    rfl

/-- The variable that is looked up under the name of another is that one exactly if it belongs to
the model. -/
theorem Indexed.findVariable?_eq_some_iff (hm : m.Indexed) :
    m.findVariable? x.name = some x ↔ x ∈ m.vars :=
  (find?_key_eq_some hm.varsNodup).trans (and_iff_left rfl)

/-- The first variable that is not declared is reported. -/
theorem Indexed.demandDeclared_apply (hm : m.Indexed) (name : String) (xs : List Variable) :
    demandDeclared name xs m =
      match xs.find? (· ∉ m.vars) with
      | some x => .error (.error (.undeclaredVariable name x.name)) m
      | none => .ok () m := by
  induction xs with
  | nil => rfl
  | cons x xs ih =>
    unfold demandDeclared
    rw [Step.get_bind_apply, hm.lookupVariable_eq]
    by_cases hx : x ∈ m.vars
    · have hknown : ¬ m.findVariable? x.name ≠ some x := by simp [hm.findVariable?_eq_some_iff, hx]
      rw [List.find?_cons_of_neg (by simpa using hx), ← ih]
      show (if m.findVariable? x.name ≠ some x then _ else _ : Registering Unit) m = _
      rw [if_neg hknown]
    · have hunknown : m.findVariable? x.name ≠ some x := by simpa [hm.findVariable?_eq_some_iff]
      rw [List.find?_cons_of_pos (by simpa using hx)]
      show (if m.findVariable? x.name ≠ some x then _ else _ : Registering Unit) m = _
      rw [if_pos hunknown]
      rfl

/-- A constraint is entered if its name is new and its variables are declared. -/
theorem Indexed.addConstraint_apply (hm : m.Indexed) (c : Constraint) :
    addConstraint c m =
      if c.name ∈ m.constraints.map (·.name) then .error (.error (.duplicateConstraint c.name)) m
      else
        match c.vars.find? (· ∉ m.vars) with
        | some x => .error (.error (.undeclaredVariable c.name x.name)) m
        | none => .ok () (m.withConstraint c) := by
  unfold addConstraint
  rw [Step.get_bind_apply, ← if_congr hm.constraintPlaces.contains_iff rfl rfl]
  split_ifs
  · rfl
  · show EStateM.bind (demandDeclared c.name c.vars) _ m = _
    unfold EStateM.bind
    rw [hm.demandDeclared_apply]
    cases c.vars.find? (· ∉ m.vars) <;> rfl

/-- A variable is registered exactly if its name is new. -/
theorem Indexed.addVariable_eq_ok_iff (hm : m.Indexed) :
    addVariable x m = .ok () m' ↔ x.name ∉ m.vars.map (·.name) ∧ m' = m.withVariable x := by
  rw [hm.addVariable_apply]
  split_ifs with htaken
  · exact iff_of_false (fun h => nomatch h) fun h => h.1 htaken
  · simp [htaken, eq_comm]

/-- A constraint is registered exactly if its name is new and its variables are registered. -/
theorem Indexed.addConstraint_eq_ok_iff (hm : m.Indexed) :
    addConstraint c m = .ok () m' ↔ c.name ∉ m.constraints.map (·.name) ∧
      (∀ x ∈ c.vars, x ∈ m.vars) ∧ m' = m.withConstraint c := by
  rw [hm.addConstraint_apply]
  split_ifs with htaken
  · exact iff_of_false (fun h => nomatch h) fun h => h.1 htaken
  · cases hfind : c.vars.find? (· ∉ m.vars) with
    | some x =>
      have hx : x ∉ m.vars := by simpa using List.find?_some hfind
      have hmem : x ∈ c.vars := List.mem_of_find?_eq_some hfind
      exact iff_of_false (fun h => nomatch h) fun h => hx (h.2.1 x hmem)
    | none =>
      have hvars : ∀ x ∈ c.vars, x ∈ m.vars := by simpa using List.find?_eq_none.1 hfind
      refine ⟨fun h => ?_, fun h => by rw [h.2.2]⟩
      cases h
      exact ⟨htaken, hvars, rfl⟩

/-- A variable that is refused leaves the model as it was. -/
theorem Indexed.addVariable_error_eq (hm : m.Indexed) {f : Failure ModelError}
    (h : addVariable x m = .error f m') : m' = m := by
  rw [hm.addVariable_apply] at h
  split_ifs at h
  cases h
  rfl

/-- A constraint that is refused leaves the model as it was. -/
theorem Indexed.addConstraint_error_eq (hm : m.Indexed) {f : Failure ModelError}
    (h : addConstraint c m = .error f m') : m' = m := by
  rw [hm.addConstraint_apply] at h
  split_ifs at h
  · cases h
    rfl
  · split at h <;> cases h
    rfl

end Registering

theorem wellFormed_empty : empty.WellFormed where
  toIndexed := indexed_empty
  varNames := List.forall_mem_nil _
  constraints := List.forall_mem_nil _
  declared := List.forall_mem_nil _

/-- A new variable with an identifier as its name keeps a model well-formed. -/
theorem WellFormed.withVariable {m : Model} (hm : m.WellFormed) {x : Variable}
    (hname : Identifier.isValid x.name) (hnew : x.name ∉ m.vars.map (·.name)) :
    (m.withVariable x).WellFormed where
  toIndexed := hm.toIndexed.withVariable hnew
  varNames := List.forall_mem_append.2 ⟨hm.varNames, List.forall_mem_singleton.2 hname⟩
  constraints := hm.constraints
  declared c hc y hy := List.mem_append_left _ (hm.declared c hc y hy)

/-- A new constraint on variables of the model keeps it well-formed. -/
theorem WellFormed.withConstraint {m : Model} (hm : m.WellFormed) {c : Constraint}
    (hc : c.WellFormed) (hnew : c.name ∉ m.constraints.map (·.name))
    (hdeclared : ∀ x ∈ c.vars, x ∈ m.vars) : (m.withConstraint c).WellFormed where
  toIndexed := hm.toIndexed.withConstraint hnew
  varNames := hm.varNames
  constraints := List.forall_mem_append.2 ⟨hm.constraints, List.forall_mem_singleton.2 hc⟩
  declared := List.forall_mem_append.2 ⟨hm.declared, List.forall_mem_singleton.2 hdeclared⟩

/-- What is built by entering is well formed. -/
theorem Built.wellFormed {m : Model} (h : m.Built) : m.WellFormed := by
  induction h with
  | empty => exact wellFormed_empty
  | addVariable _ hx h ih =>
    obtain ⟨hfresh, rfl⟩ := ih.addVariable_eq_ok_iff.1 h
    obtain ⟨_, hname, hnew⟩ := Checked.bind_eq_ok.1 hx
    cases hnew
    exact ih.withVariable (Constraint.check_eq_ok hname) hfresh
  | addConstraint _ hc h ih =>
    obtain ⟨hfresh, hdeclared, rfl⟩ := ih.addConstraint_eq_ok_iff.1 h
    exact ih.withConstraint hc.wellFormed hfresh hdeclared

/-! ### Assignments -/

/-- The values lie in the domains, and no hard constraint is violated. -/
structure Feasible (m : Model) (value : String → Int) : Prop where
  /-- The values lie in the domains. -/
  inDomains : InDomains value m.vars
  /-- No hard constraint is violated. -/
  hard : ∀ c ∈ m.hardConstraints, c.violation (.of value) = .ok 0

/-- The weighted sum of the violations of the soft constraints. -/
def cost (m : Model) (value : String → Int) : Int :=
  (m.softConstraints.map fun c => (c.weight.price : Int) * c.amount value).sum

/-- The values are feasible, and none that are feasible cost less. -/
def Cheapest (m : Model) (value : String → Int) : Prop :=
  m.Feasible value ∧ ∀ other, m.Feasible other → m.cost value ≤ m.cost other

/-- The soft constraints of a price. -/
def ofPrice (m : Model) (price : Nat) : List Constraint :=
  m.constraints.filter fun c => c.weight = .soft price

/-- The total violation of the soft constraints of a price. -/
def tierTotal (m : Model) (value : String → Int) (price : Nat) : Int :=
  ((m.ofPrice price).map (·.amount value)).sum

/-- The total violation of each price, the highest price first. -/
def totals (m : Model) (value : String → Int) : List Int :=
  (m.tiers.map (·.price)).map (m.tierTotal value)

/-- The values are feasible, and their totals come first in the lexicographic order. -/
def Foremost (m : Model) (value : String → Int) : Prop :=
  m.Feasible value ∧ ∀ other, m.Feasible other → m.totals value ≤ m.totals other

variable {m : Model} {value : String → Int}

theorem mem_ofPrice {price : Nat} {c : Constraint} :
    c ∈ m.ofPrice price ↔ c ∈ m.constraints ∧ c.weight = .soft price := by
  rw [ofPrice, List.mem_filter, decide_eq_true_iff]

theorem ofPrice_eq_filter (m : Model) (price : Nat) :
    m.ofPrice price = m.softConstraints.filter (·.weight.price = price) := by
  rw [ofPrice, softConstraints, List.filter_filter]
  refine List.filter_congr fun c _ => Bool.eq_iff_iff.2 ?_
  rw [Bool.and_eq_true, decide_eq_true_iff, decide_eq_true_iff]
  cases hw : c.weight with
  | hard => simp [Constraint.isSoft, hw, Weight.isHard]
  | soft w => simp [Constraint.isSoft, hw, Weight.isHard, Weight.price]

/-- A constraint is found by its name. -/
theorem WellFormed.findConstraint? (hm : m.WellFormed) {c : Constraint} (hc : c ∈ m.constraints) :
    m.findConstraint? c.name = some c := find?_key hm.constraintsNodup hc

/-- The violation of a constraint is computed, and it is what the constraint charges. -/
theorem WellFormed.violation_eq_ok (hm : m.WellFormed) (hin : InDomains value m.vars)
    {c : Constraint} (hc : c ∈ m.constraints) : c.violation (.of value) = .ok (c.amount value) :=
  Constraint.violation_eq_ok (hm.constraints c hc) fun x hx => hin x (hm.declared c hc x hx)

theorem mem_hardConstraints {c : Constraint} :
    c ∈ m.hardConstraints ↔ c ∈ m.constraints ∧ c.weight = .hard := by
  unfold hardConstraints Constraint.isHard
  rw [List.mem_filter]
  cases c.weight <;> simp [Weight.isHard]

theorem mem_softConstraints {c : Constraint} :
    c ∈ m.softConstraints ↔ c ∈ m.constraints ∧ ∃ price, c.weight = .soft price := by
  unfold softConstraints Constraint.isSoft
  rw [List.mem_filter]
  cases c.weight <;> simp [Weight.isHard]

/-- Feasibility without arithmetic. -/
theorem WellFormed.feasible_iff (hm : m.WellFormed) :
    m.Feasible value ↔ InDomains value m.vars ∧
      ∀ c ∈ m.constraints, c.weight = .hard → c.body.Holds value := by
  constructor
  · rintro ⟨hin, hhard⟩
    refine ⟨hin, fun c hc hweight => ?_⟩
    have hzero := hhard c (mem_hardConstraints.2 ⟨hc, hweight⟩)
    rw [hm.violation_eq_ok hin hc] at hzero
    exact (Constraint.amount_eq_zero_iff c value).1 (by simpa using hzero)
  · rintro ⟨hin, hhard⟩
    refine ⟨hin, fun c hc => ?_⟩
    obtain ⟨hmem, hweight⟩ := mem_hardConstraints.1 hc
    rw [hm.violation_eq_ok hin hmem,
      (Constraint.amount_eq_zero_iff c value).2 (hhard c hmem hweight)]

/-! ### Tiers -/

end Model

namespace Tier

/-- The tiers group the soft constraints of a list by price, the highest price first. -/
structure Groups (cs : List Constraint) (ts : List Tier) : Prop where
  /-- The prices fall. -/
  falling : (ts.map (·.price)).Pairwise (· > ·)
  /-- A tier has the constraints of its price, in order. -/
  members : ∀ t ∈ ts, t.members = cs.filter fun c => c.weight = .soft t.price
  /-- Every soft constraint is in a tier. -/
  complete : ∀ c ∈ cs, ∀ price, c.weight = .soft price → price ∈ ts.map (·.price)

/-- Inserting a constraint adds its price to those of the tiers. -/
theorem mem_prices_insert {price w : Nat} {c : Constraint} {ts : List Tier} :
    w ∈ (insert price c ts).map (·.price) ↔ w = price ∨ w ∈ ts.map (·.price) := by
  induction ts with
  | nil => simp [insert]
  | cons t ts ih =>
    unfold insert
    split_ifs with heq hlt
    · simp [heq]
    · simp
    · rw [List.map_cons, List.mem_cons, ih, List.map_cons, List.mem_cons]
      tauto

theorem falling_insert {price : Nat} {c : Constraint} {ts : List Tier}
    (h : (ts.map (·.price)).Pairwise (· > ·)) :
    ((insert price c ts).map (·.price)).Pairwise (· > ·) := by
  induction ts with
  | nil => simp [insert]
  | cons t ts ih =>
    obtain ⟨hhead, hrest⟩ := List.pairwise_cons.1 h
    unfold insert
    split_ifs with heq hlt
    · exact h
    · refine List.pairwise_cons.2 ⟨List.forall_mem_cons.2 ⟨hlt, fun w hw => ?_⟩, h⟩
      exact Nat.lt_trans (hhead w hw) hlt
    · refine List.pairwise_cons.2 ⟨fun w hw => ?_, ih hrest⟩
      rcases mem_prices_insert.1 hw with rfl | hw
      · show w < t.price
        omega
      · exact hhead w hw

/-- A tier after an insertion is an old one of another price, an old one with the constraint put
last, or new. -/
theorem mem_insert {price : Nat} {c : Constraint} {t : Tier} {ts : List Tier}
    (hfalling : (ts.map (·.price)).Pairwise (· > ·)) (h : t ∈ insert price c ts) :
    (t ∈ ts ∧ t.price ≠ price) ∨
    (∃ u ∈ ts, u.price = price ∧ t = { u with members := u.members ++ [c] }) ∨
    (price ∉ ts.map (·.price) ∧ t = ⟨price, [c]⟩) := by
  induction ts with
  | nil => exact .inr (.inr ⟨by simp, List.mem_singleton.1 h⟩)
  | cons u ts ih =>
    obtain ⟨hhead, hrest⟩ := List.pairwise_cons.1 hfalling
    have hbelow : ∀ v ∈ ts, v.price < u.price := fun v hv => hhead v.price (List.mem_map_of_mem hv)
    unfold insert at h
    split_ifs at h with heq hlt
    · rcases List.mem_cons.1 h with rfl | ht
      · exact .inr (.inl ⟨u, List.mem_cons_self, heq, rfl⟩)
      · have := hbelow t ht
        exact .inl ⟨List.mem_cons_of_mem _ ht, by omega⟩
    · -- The tiers fall, so the price is above all that is left of the list.
      have hfresh : ∀ v ∈ u :: ts, v.price < price := by
        refine List.forall_mem_cons.2 ⟨hlt, fun v hv => ?_⟩
        exact Nat.lt_trans (hbelow v hv) hlt
      rcases List.mem_cons.1 h with rfl | ht
      · refine .inr (.inr ⟨fun hmem => ?_, rfl⟩)
        obtain ⟨v, hv, hprice⟩ := List.mem_map.1 hmem
        have := hfresh v hv
        omega
      · exact .inl ⟨ht, Nat.ne_of_lt (hfresh t ht)⟩
    · rcases List.mem_cons.1 h with rfl | ht
      · exact .inl ⟨List.mem_cons_self, heq⟩
      · rcases ih hrest ht with ⟨hmem, hne⟩ | ⟨v, hv, hprice, rfl⟩ | ⟨hfresh, rfl⟩
        · exact .inl ⟨List.mem_cons_of_mem _ hmem, hne⟩
        · exact .inr (.inl ⟨v, List.mem_cons_of_mem _ hv, hprice, rfl⟩)
        · refine .inr (.inr ⟨fun hmem => ?_, rfl⟩)
          rcases List.mem_cons.1 hmem with rfl | hmem
          · exact heq rfl
          · exact hfresh hmem

/-- Inserting a constraint extends the group of its price. -/
theorem Groups.insert {cs : List Constraint} {ts : List Tier} (h : Groups cs ts) {price : Nat}
    {c : Constraint} (hc : c.weight = .soft price) :
    Groups (cs ++ [c]) (Tier.insert price c ts) := by
  refine ⟨falling_insert h.falling, fun t ht => ?_, fun d hd w hw => ?_⟩
  · rw [List.filter_append]
    rcases mem_insert h.falling ht with ⟨hmem, hne⟩ | ⟨u, hu, rfl, rfl⟩ | ⟨hfresh, rfl⟩
    · rw [h.members t hmem]
      simp [hc, Ne.symm hne]
    · rw [← h.members u hu]
      simp [hc]
    · -- A new price is of no earlier constraint, as the tiers name all prices in use.
      have hnone : cs.filter (fun d => d.weight = .soft price) = [] := by
        refine List.filter_eq_nil_iff.2 fun d hd hweight => hfresh ?_
        exact h.complete d hd price (of_decide_eq_true hweight)
      rw [hnone]
      simp [hc]
  · refine mem_prices_insert.2 ?_
    rcases List.mem_append.1 hd with hd | hd
    · exact .inr (h.complete d hd w hw)
    · rw [List.mem_singleton.1 hd, hc] at hw
      cases hw
      exact .inl rfl

/-- A constraint that has to hold is in no tier. -/
theorem Groups.append_hard {cs : List Constraint} {ts : List Tier} (h : Groups cs ts)
    {c : Constraint} (hc : c.weight = .hard) : Groups (cs ++ [c]) ts := by
  refine ⟨h.falling, fun t ht => ?_, fun d hd w hw => ?_⟩
  · rw [List.filter_append, h.members t ht]
    simp [hc]
  · rcases List.mem_append.1 hd with hd | hd
    · exact h.complete d hd w hw
    · rw [List.mem_singleton.1 hd, hc] at hw
      cases hw

theorem ofConstraints_concat (cs : List Constraint) (c : Constraint) :
    ofConstraints (cs ++ [c]) = match c.weight with
      | .hard => ofConstraints cs
      | .soft w => insert w c (ofConstraints cs) := by
  rw [ofConstraints, List.foldl_append]
  rfl

/-- Tiers group the constraints by their prices. -/
theorem groups_ofConstraints (cs : List Constraint) : Groups cs (ofConstraints cs) := by
  induction cs using List.reverseRecOn with
  | nil => exact ⟨List.Pairwise.nil, by simp [ofConstraints], by simp⟩
  | append_singleton cs c ih =>
    rw [ofConstraints_concat]
    cases hc : c.weight with
    | hard => exact ih.append_hard hc
    | soft w => exact ih.insert hc

end Tier

namespace Model

/-- **Tiers** come with falling prices. -/
theorem falling_tiers (m : Model) : (m.tiers.map (·.price)).Pairwise (· > ·) :=
  (Tier.groups_ofConstraints m.constraints).falling

/-- No price has two tiers. -/
theorem nodup_tiers (m : Model) : (m.tiers.map (·.price)).Nodup :=
  m.falling_tiers.imp fun hgt => Nat.ne_of_gt hgt

/-- The members of a tier are the constraints of its price. -/
theorem members_tiers {m : Model} {t : Tier} (ht : t ∈ m.tiers) : t.members = m.ofPrice t.price :=
  (Tier.groups_ofConstraints m.constraints).members t ht

/-- Every price of a soft constraint has a tier. -/
theorem price_mem_tiers {m : Model} {c : Constraint} (hc : c ∈ m.constraints) {price : Nat}
    (hweight : c.weight = .soft price) : price ∈ m.tiers.map (·.price) :=
  (Tier.groups_ofConstraints m.constraints).complete c hc price hweight

/-! ### A small model -/

namespace Sample

/-- A variable with a gap in its domain. -/
def x : Variable := ⟨"x", ⟨[0, 2], by decide, by decide⟩⟩

/-- A truth value. -/
def y : Variable := ⟨"y", .bit⟩

/-- Not both variables are large. -/
def apart : Constraint := ⟨"apart", .hard, .conflict [⟨x, 2, true⟩, ⟨y, 1, true⟩]⟩

/-- The variables add up to one. -/
def level : Constraint := ⟨"level", .soft 3, .linear [⟨1, x⟩, ⟨1, y⟩] .eq 1⟩

/-- The first variable is large. -/
def high : Constraint := ⟨"high", .soft 1, .pseudoBoolean [⟨1, x, 0⟩] .le 0⟩

/-- Two variables, one hard and two soft constraints. -/
def model : Model := .ofLists [x, y] [apart, level, high]

theorem built_model : model.Built := by
  have hx : Variable.new "x" x.domain = .ok x := rfl
  have hy : Variable.new "y" y.domain = .ok y := rfl
  have hapart : Constraint.conflict "apart" .hard [⟨x, 2, true⟩, ⟨y, 1, true⟩] = .ok apart := rfl
  have hlevel : Constraint.linear "level" (.soft 3) [⟨1, x⟩, ⟨1, y⟩] (some .eq) 1 = .ok level := rfl
  have hhigh : Constraint.pseudoBoolean "high" (.soft 1) [⟨1, x, 0⟩] (some .le) 0 = .ok high := rfl
  have hvars : Built (.ofLists [x, y] []) := .addVariable (.addVariable .empty hx rfl) hy rfl
  have hhard : Built (.ofLists [x, y] [apart]) := .addConstraint hvars (.conflict hapart) rfl
  have hsoft : Built (.ofLists [x, y] [apart, level]) := .addConstraint hhard (.linear hlevel) rfl
  exact .addConstraint hsoft (.pseudoBoolean hhigh) rfl

/-- The truth value is false. -/
def low : Constraint := ⟨"low", .hard, .conflict [⟨y, 1, true⟩]⟩

/-- The truth value should be true. -/
def wanted : Constraint := ⟨"wanted", .soft 1, .conflict [⟨y, 0, true⟩]⟩

/-- A soft constraint that a hard one rules out. -/
def forced : Model := .ofLists [y] [low, wanted]

theorem built_forced : forced.Built := by
  have hy : Variable.new "y" y.domain = .ok y := rfl
  have hlow : Constraint.conflict "low" .hard [⟨y, 1, true⟩] = .ok low := rfl
  have hwanted : Constraint.conflict "wanted" (.soft 1) [⟨y, 0, true⟩] = .ok wanted := rfl
  have hvars : Built (.ofLists [y] []) := .addVariable .empty hy rfl
  have hhard : Built (.ofLists [y] [low]) := .addConstraint hvars (.conflict hlow) rfl
  exact .addConstraint hhard (.conflict hwanted) rfl

/-- Above all, the truth value should be false. -/
def unwanted : Constraint := ⟨"unwanted", .soft 2, .conflict [⟨y, 1, true⟩]⟩

/-- Two soft constraints of different prices that contradict each other. -/
def torn : Model := .ofLists [y] [wanted, unwanted]

theorem built_torn : torn.Built := by
  have hy : Variable.new "y" y.domain = .ok y := rfl
  have hwanted : Constraint.conflict "wanted" (.soft 1) [⟨y, 0, true⟩] = .ok wanted := rfl
  have hunwanted : Constraint.conflict "unwanted" (.soft 2) [⟨y, 1, true⟩] = .ok unwanted := rfl
  have hvars : Built (.ofLists [y] []) := .addVariable .empty hy rfl
  have hlight : Built (.ofLists [y] [wanted]) := .addConstraint hvars (.conflict hwanted) rfl
  exact .addConstraint hlight (.conflict hunwanted) rfl

/-- A violation by `2 ^ 62`. -/
def steepLimit (name : String) : Constraint :=
  ⟨name, .soft 1, .linear [⟨4611686018427387904, y⟩] .le 0⟩

/-- Three violations that fit the machine range, but not their sum. -/
def steep : Model := .ofLists [y] [steepLimit "a", steepLimit "b", steepLimit "c"]

theorem built_steep : steep.Built := by
  have hy : Variable.new "y" y.domain = .ok y := rfl
  have hlimit : ∀ name, Identifier.isValid name →
      Constraint.linear name (.soft 1) [⟨4611686018427387904, y⟩] (some .le) 0 =
        .ok (steepLimit name) := by
    intro name hname
    simp [Constraint.linear, Identifier.check, hname]
    rfl
  have hvars : Built (.ofLists [y] []) := .addVariable .empty hy rfl
  have ha : Built (.ofLists [y] [steepLimit "a"]) :=
    .addConstraint hvars (.linear (hlimit "a" rfl)) rfl
  have hab : Built (.ofLists [y] [steepLimit "a", steepLimit "b"]) :=
    .addConstraint ha (.linear (hlimit "b" rfl)) rfl
  exact .addConstraint hab (.linear (hlimit "c" rfl)) rfl

end Sample

end Model

end WeightedCsp

import WeightedCsp.Proofs.Model
import WeightedCsp.Roster.Model

/-!
# Plans

A plan is a list of constraints that may fail to be built.  A model comes about only if all of them
can be built and registered, and then it has exactly these constraints (`addPlanned_eq_ok`).

`Means` is what a plan says about given values in that case: the rule that its hard constraints
enforce, and the price that its soft constraints charge.  The meaning of a plan is put together from
those of its parts (`Means.append`, `Means.flatMap`), so that each function that plans a constraint
has one lemma about its own constraint.
-/

namespace WeightedCsp.Roster

/-! ### Registration -/

theorem building_eq_ok {α : Type} {x : Except ModelError α} {a : α} :
    building x = .ok a ↔ x = .ok a := by
  cases x <;> simp [building]

/-- What is entered comes after what is there. -/
theorem addVariables_eq_ok {m m' : Model} {xs : List Variable} {u : Unit} (hm : m.Built)
    (h : addVariables xs m = .ok u m') :
    m'.vars = m.vars ++ xs ∧ m'.constraints = m.constraints ∧ m'.Built := by
  induction xs generalizing m with
  | nil =>
    cases h
    exact ⟨(List.append_nil _).symm, rfl, hm⟩
  | cons x xs ih =>
    obtain ⟨y, n, hnew, hrest⟩ := Step.bind_eq_ok.1 h
    obtain ⟨z, n₁, hlift, h₁⟩ := Step.bind_eq_ok.1 hnew
    obtain ⟨hz, rfl⟩ := Step.except_eq_ok.1 hlift
    obtain ⟨v, n₂, hadd, h₂⟩ := Step.bind_eq_ok.1 h₁
    cases h₂
    -- A variable is rebuilt from its own name and domain, so it comes out unchanged.
    have hbuilt : Variable.new x.name x.domain = .ok y := Failure.ofExcept_eq_ok.1 hz
    have hx : y = x := by
      obtain ⟨-, -, hy⟩ := Checked.bind_eq_ok.1 hbuilt
      cases hy
      rfl
    obtain ⟨hvars, hcons, hlast⟩ := ih (.addVariable hm hbuilt hadd) hrest
    obtain ⟨-, rfl⟩ := hm.wellFormed.addVariable_eq_ok_iff.1 hadd
    refine ⟨?_, hcons, hlast⟩
    rw [hvars, hx, List.append_cons]
    rfl

/-- **Registration.** All constraints of the plan were built, and the model has them in order. -/
theorem addPlanned_eq_ok {m m' : Model} {plan : List Planned} {u : Unit} (hm : m.Indexed)
    (h : addPlanned plan m = .ok u m') :
    ∃ cs : List Constraint, plan = cs.map .ok ∧ m'.vars = m.vars ∧
      m'.constraints = m.constraints ++ cs ∧ (m.Built → (∀ c ∈ cs, c.Built) → m'.Built) := by
  induction plan generalizing m with
  | nil =>
    cases h
    exact ⟨[], rfl, rfl, (List.append_nil _).symm, fun hm _ => hm⟩
  | cons planned plan ih =>
    obtain ⟨c, n, hplanned, h₁⟩ := Step.bind_eq_ok.1 h
    obtain ⟨rfl, rfl⟩ := Step.except_eq_ok.1 hplanned
    obtain ⟨v, next, hadd, h₂⟩ := Step.bind_eq_ok.1 h₁
    have hadd' := Step.mapError_eq_ok.1 hadd
    obtain ⟨hnew, -, rfl⟩ := hm.addConstraint_eq_ok_iff.1 hadd'
    obtain ⟨cs, rfl, hvars, hcons, hbuilt⟩ := ih (hm.withConstraint hnew) h₂
    refine ⟨c :: cs, rfl, hvars, ?_, fun hm hcs => ?_⟩
    · rw [hcons, List.append_cons]
      rfl
    · obtain ⟨hc, hcs⟩ := List.forall_mem_cons.1 hcs
      exact hbuilt (.addConstraint hm hc hadd') hcs

/-! ### Meaning -/

/-- What constraints say about given values. -/
structure Meaning (value : String → Int) (cs : List Constraint) (rule : Prop) (price : Int) :
    Prop where
  /-- The constraints passed the checks of their builders. -/
  built : ∀ c ∈ cs, c.Built
  /-- The hard constraints enforce the rule. -/
  rule : (∀ c ∈ cs, c.weight = .hard → c.amount value = 0) ↔ rule
  /-- The soft constraints charge the price. -/
  price : (cs.map fun c => (c.weight.price : Int) * c.amount value).sum = price

/-- What a plan says about given values if all its constraints can be built. -/
def Means (value : String → Int) (plan : List Planned) (rule : Prop) (price : Int) : Prop :=
  ∀ cs : List Constraint, plan = cs.map .ok → Meaning value cs rule price

section Means

variable {value : String → Int} {plan plan₁ plan₂ : List Planned} {rule rule₁ rule₂ : Prop}
  {price price₁ price₂ : Int}

theorem Means.congr (h : Means value plan rule₁ price₁) (hrule : rule₁ ↔ rule₂)
    (hprice : price₁ = price₂) : Means value plan rule₂ price₂ := by
  intro cs hcs
  obtain ⟨hbuilt, hmeant, hcharged⟩ := h cs hcs
  exact ⟨hbuilt, hmeant.trans hrule, hcharged.trans hprice⟩

theorem means_nil : Means value [] True 0 := by
  intro cs hcs
  obtain rfl := List.map_eq_nil_iff.1 hcs.symm
  exact ⟨List.forall_mem_nil _, iff_of_true (List.forall_mem_nil _) trivial, rfl⟩

/-- A hard constraint charges nothing. -/
theorem means_hard {x : Planned}
    (h : ∀ c, x = .ok c → c.Built ∧ c.weight = .hard ∧ (c.body.Holds value ↔ rule)) :
    Means value [x] rule 0 := by
  intro cs hcs
  obtain ⟨c, rest, rfl, hx, hrest⟩ := List.map_eq_cons_iff.1 hcs.symm
  obtain rfl := List.map_eq_nil_iff.1 hrest
  obtain ⟨hbuilt, hhard, hholds⟩ := h c hx.symm
  refine ⟨List.forall_mem_singleton.2 hbuilt, ?_, ?_⟩
  · rw [List.forall_mem_singleton, Constraint.amount_eq_zero_iff, hholds]
    exact forall_prop_of_true hhard
  · rw [List.map_singleton, List.sum_singleton, hhard]
    exact Int.zero_mul _

/-- A soft constraint enforces nothing. -/
theorem means_soft {x : Planned}
    (h : ∀ c, x = .ok c → c.Built ∧ ∃ w, c.weight = .soft w ∧ w * c.amount value = price) :
    Means value [x] True price := by
  intro cs hcs
  obtain ⟨c, rest, rfl, hx, hrest⟩ := List.map_eq_cons_iff.1 hcs.symm
  obtain rfl := List.map_eq_nil_iff.1 hrest
  obtain ⟨hbuilt, w, hsoft, hprice⟩ := h c hx.symm
  refine ⟨List.forall_mem_singleton.2 hbuilt, ?_, ?_⟩
  · rw [List.forall_mem_singleton, hsoft]
    exact iff_of_true nofun trivial
  · rw [List.map_singleton, List.sum_singleton, hsoft]
    exact hprice

/-- Two plans mean both rules, and their prices add up. -/
theorem Means.append (h₁ : Means value plan₁ rule₁ price₁) (h₂ : Means value plan₂ rule₂ price₂) :
    Means value (plan₁ ++ plan₂) (rule₁ ∧ rule₂) (price₁ + price₂) := by
  intro cs hcs
  obtain ⟨cs₁, cs₂, rfl, hcs₁, hcs₂⟩ := List.map_eq_append_iff.1 hcs.symm
  obtain ⟨hbuilt₁, hrule₁, hprice₁⟩ := h₁ cs₁ hcs₁.symm
  obtain ⟨hbuilt₂, hrule₂, hprice₂⟩ := h₂ cs₂ hcs₂.symm
  refine ⟨List.forall_mem_append.2 ⟨hbuilt₁, hbuilt₂⟩, ?_, ?_⟩
  · rw [List.forall_mem_append, hrule₁, hrule₂]
  · rw [List.map_append, List.sum_append, hprice₁, hprice₂]

theorem Means.flatMap {α : Type} {as : List α} {f : α → List Planned} {rule : α → Prop}
    {price : α → Int} (h : ∀ a ∈ as, Means value (f a) (rule a) (price a)) :
    Means value (as.flatMap f) (∀ a ∈ as, rule a) (as.map price).sum := by
  induction as with
  | nil => exact means_nil.congr (by simp) rfl
  | cons a as ih =>
    obtain ⟨ha, has⟩ := List.forall_mem_cons.1 h
    rw [List.flatMap_cons]
    apply (ha.append (ih has)).congr
    · rw [List.forall_mem_cons]
    · rw [List.map_cons, List.sum_cons]

/-- Parts that charge nothing charge nothing together. -/
theorem Means.flatMap_zero {α : Type} {as : List α} {f : α → List Planned} {rule : α → Prop}
    (h : ∀ a ∈ as, Means value (f a) (rule a) 0) :
    Means value (as.flatMap f) (∀ a ∈ as, rule a) 0 :=
  (Means.flatMap h).congr Iff.rfl List.sum_map_zero

/-- Parts that enforce nothing enforce nothing together. -/
theorem Means.flatMap_true {α : Type} {as : List α} {f : α → List Planned} {price : α → Int}
    (h : ∀ a ∈ as, Means value (f a) True (price a)) :
    Means value (as.flatMap f) True (as.map price).sum :=
  (Means.flatMap h).congr (iff_of_true (fun _ _ => trivial) trivial) rfl

theorem Means.map_zero {α : Type} {as : List α} {f : α → Planned} {rule : α → Prop}
    (h : ∀ a ∈ as, Means value [f a] (rule a) 0) :
    Means value (as.map f) (∀ a ∈ as, rule a) 0 := by
  rw [List.map_eq_flatMap]
  exact Means.flatMap_zero h

theorem Means.map_true {α : Type} {as : List α} {f : α → Planned} {price : α → Int}
    (h : ∀ a ∈ as, Means value [f a] True (price a)) :
    Means value (as.map f) True (as.map price).sum := by
  rw [List.map_eq_flatMap]
  exact Means.flatMap_true h

/-- A plan that cannot be made says nothing, since no model comes of it. -/
theorem means_orFault {x : Checked (List Planned)}
    (h : ∀ plan, x = .ok plan → Means value plan rule price) :
    Means value (orFault x) rule price := by
  cases x with
  | ok plan => exact h plan rfl
  | error f =>
    intro cs hcs
    obtain ⟨c, -, -, hc, -⟩ := List.map_eq_cons_iff.1 hcs.symm
    cases hc

end Means

end WeightedCsp.Roster

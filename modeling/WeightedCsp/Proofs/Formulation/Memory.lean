import Mathlib
import WeightedCsp.Proofs.Formulation.Translation

/-!
# What a formulation remembers

Entities are formulated one by one, in any order, some of them again and some in vain.
`Formulation.askAll` is any sequence of such requests to an empty formulation, with a log of the
answers.  What a formulation remembers is what the log says was formulated, each entity once and in
the order in which it came up first (`Remembers`).  One request keeps this (`Remembers.ask`), and so
does a sequence (`remembers_askAll`).

So the penalties are those of the soft constraints, one for each and in the same order
(`Consistent.forall₂_describes`), and the name of a constraint leads to its own.
-/

namespace WeightedCsp

/-- What can be formulated. -/
inductive Entity where
  | var (x : Variable)
  | constraint (c : Constraint)

/-- What is said of the entity. -/
def Entity.exprs : Entity → List Expr
  | .var x => Formulation.variableExprs x
  | .constraint c => Formulation.constraintExprs c

namespace Formulation

/-! ### Requests -/

/-- The expressions for an entity, or why there are none. -/
abbrev Answer : Type := Except FormulationError (List Expr)

/-- The answer to a result and the formulation after it, which is the old one after an error. -/
def settle (f : Formulation) : Except FormulationError (List Expr × Formulation) →
    Answer × Formulation
  | .ok (es, f') => (.ok es, f')
  | .error e => (.error e, f)

/-- Asks for an entity to be formulated. -/
def ask (f : Formulation) : Entity → Answer × Formulation
  | .var x => f.settle (f.addVariable x)
  | .constraint c => f.settle (f.addConstraint c)

/-- The log of a sequence of requests and the formulation after them. -/
def askAll (f : Formulation) : List Entity → List (Entity × Answer) × Formulation
  | [] => ([], f)
  | e :: es =>
    let (r, f') := f.ask e
    let (log, f'') := f'.askAll es
    ((e, r) :: log, f'')

/-- The variable that was formulated. -/
def formulatedVar? : Entity × Answer → Option Variable
  | (.var x, .ok _) => some x
  | _ => none

/-- The constraint that was formulated. -/
def formulatedConstraint? : Entity × Answer → Option Constraint
  | (.constraint c, .ok _) => some c
  | _ => none

/-- The entity was formulated before. -/
def Knows (f : Formulation) : Entity → Prop
  | .var x => x ∈ f.vars
  | .constraint c => c ∈ f.constraints

/-- The entity can be formulated. -/
def Admits (f : Formulation) : Entity → Prop
  | .var x => ∀ y ∈ f.vars, y.name = x.name → y = x
  | .constraint c => (∀ d ∈ f.constraints, d.name = c.name → d = c) ∧ (∀ x ∈ c.vars, x ∈ f.vars) ∧
    isSoftAllDifferent c = false

/-- The tables of the formulation fit each other. -/
structure Consistent (f : Formulation) : Prop where
  /-- No two variables have the same name. -/
  vars : (f.vars.map (·.name)).Nodup
  /-- No two constraints have the same name. -/
  constraints : (f.constraints.map (·.name)).Nodup
  /-- Constraints speak of formulated variables. -/
  declared : ∀ c ∈ f.constraints, ∀ x ∈ c.vars, x ∈ f.vars
  /-- No soft all-different constraint was formulated. -/
  supported : ∀ c ∈ f.constraints, isSoftAllDifferent c = false
  /-- The penalties are those of the constraints. -/
  penalties : f.penalties = f.constraints.filterMap penaltyOf?

theorem consistent_empty : Consistent empty :=
  ⟨List.nodup_nil, List.nodup_nil, List.forall_mem_nil _, List.forall_mem_nil _, rfl⟩

section OneRequest

variable {f : Formulation}

/-- The formulation after a new constraint. -/
def withConstraint (f : Formulation) (c : Constraint) : Formulation :=
  { f with
    constraints := f.constraints ++ [c]
    penalties := f.penalties ++ (penaltyOf? c).toList }

/-- A name that was entered belongs to something that can be found by it. -/
theorem exists_of_name_mem {α : Type} {key : α → String} {as : List α} {name : String}
    (hnodup : (as.map key).Nodup) (h : name ∈ as.map key) :
    ∃ a ∈ as, key a = name ∧ as.find? (key · = name) = some a := by
  obtain ⟨a, ha, rfl⟩ := List.mem_map.1 h
  exact ⟨a, ha, rfl, find?_key hnodup ha⟩

/-- **What a request for a variable can do.** The variable is known and nothing changes, or it is
new, or it is refused and nothing changes. -/
theorem ask_var_cases (hf : f.Consistent) (x : Variable) :
    (x ∈ f.vars ∧ f.Admits (.var x) ∧ f.ask (.var x) = (.ok (variableExprs x), f)) ∨
    (x.name ∉ f.vars.map (·.name) ∧ f.Admits (.var x) ∧
      f.ask (.var x) = (.ok (variableExprs x), { f with vars := f.vars ++ [x] })) ∨
    (∃ e, x ∉ f.vars ∧ ¬ f.Admits (.var x) ∧ f.ask (.var x) = (.error e, f)) := by
  by_cases hname : x.name ∈ f.vars.map (·.name)
  · obtain ⟨y, hy, heq, hfind⟩ := exists_of_name_mem hf.vars hname
    by_cases hyx : y = x
    · subst hyx
      refine .inl ⟨hy, fun z hz hz' => List.inj_on_of_nodup_map hf.vars hz hy hz', ?_⟩
      simp only [ask, addVariable, hfind, if_true, settle]
    · -- The name belongs to another variable, and names are given once.
      refine .inr (.inr ⟨.duplicateDeclaration x.name, fun hx => ?_, fun hadmits => ?_, ?_⟩)
      · exact hyx (List.inj_on_of_nodup_map hf.vars hy hx heq)
      · exact hyx (hadmits y hy heq)
      · simp only [ask, addVariable, hfind, if_neg hyx, settle]
  · refine .inr (.inl ⟨hname, fun y hy heq => ?_, ?_⟩)
    · exact absurd (heq ▸ List.mem_map_of_mem hy) hname
    · simp only [ask, addVariable_eq hname, settle]

/-- If not all variables are known, there is a first one that is not. -/
theorem firstUnknown?_eq_some {xs : List Variable} (h : ¬ ∀ x ∈ xs, x ∈ f.vars) :
    ∃ x, f.firstUnknown? xs = some x := by
  cases hfirst : f.firstUnknown? xs with
  | some x => exact ⟨x, rfl⟩
  | none =>
    refine absurd (fun x hx => ?_) h
    have hfind := List.find?_eq_none.1 hfirst x hx
    exact List.mem_of_find?_eq_some (by simpa using hfind)

/-- **What a request for a constraint can do.** The constraint is known and nothing changes, or it
is new, or it is refused and nothing changes. -/
theorem ask_constraint_cases (hf : f.Consistent) (c : Constraint) :
    (c ∈ f.constraints ∧ f.Admits (.constraint c) ∧
      f.ask (.constraint c) = (.ok (constraintExprs c), f)) ∨
    (c.name ∉ f.constraints.map (·.name) ∧ f.Admits (.constraint c) ∧
      f.ask (.constraint c) = (.ok (constraintExprs c), f.withConstraint c)) ∨
    (∃ e, c ∉ f.constraints ∧ ¬ f.Admits (.constraint c) ∧
      f.ask (.constraint c) = (.error e, f)) := by
  by_cases hname : c.name ∈ f.constraints.map (·.name)
  · -- The name is known: for the same constraint, or for another one.
    obtain ⟨d, hd, heq, hfind⟩ := exists_of_name_mem hf.constraints hname
    by_cases hdc : d = c
    · subst hdc
      refine .inl ⟨hd, ⟨fun b hb hb' => ?_, hf.declared d hd, hf.supported d hd⟩, ?_⟩
      · exact List.inj_on_of_nodup_map hf.constraints hb hd hb'
      · simp only [ask, addConstraint, hfind, if_true, settle]
    · refine .inr (.inr ⟨.duplicateDeclaration c.name, fun hc => ?_, fun hadmits => ?_, ?_⟩)
      · exact hdc (List.inj_on_of_nodup_map hf.constraints hd hc heq)
      · exact hdc (hadmits.1 d hd heq)
      · simp only [ask, addConstraint, hfind, if_neg hdc, settle]
  · have hnotMem : c ∉ f.constraints := fun hc => hname (List.mem_map_of_mem hc)
    have hnone : f.constraints.find? (·.name = c.name) = none := find?_key_eq_none hname
    -- The name is new, so what is left to check are the variables and the kind.
    by_cases hdeclared : ∀ x ∈ c.vars, x ∈ f.vars
    · cases hdiff : isSoftAllDifferent c with
      | true =>
        refine .inr (.inr ⟨softAllDifferent c, hnotMem, fun hadmits => ?_, ?_⟩)
        · rw [hadmits.2.2] at hdiff
          cases hdiff
        · simp only [ask, addConstraint, hnone, firstUnknown?_eq_none hf.vars hdeclared, hdiff,
            if_true, settle]
      | false =>
        refine .inr (.inl ⟨hname, ⟨fun d hd heq => ?_, hdeclared, hdiff⟩, ?_⟩)
        · exact absurd (heq ▸ List.mem_map_of_mem hd) hname
        · simp only [ask, addConstraint_eq hname hf.vars hdeclared hdiff, settle, withConstraint]
    · obtain ⟨x, hx⟩ := firstUnknown?_eq_some hdeclared
      refine .inr (.inr ⟨.undeclaredVariable c.name x.name, hnotMem, fun h => hdeclared h.2.1, ?_⟩)
      simp only [ask, addConstraint, hnone, hx, settle]

/-- An entity that was formulated before is formulated in the same way again. -/
theorem ask_of_knows (hf : f.Consistent) {e : Entity} (h : f.Knows e) :
    f.ask e = (.ok e.exprs, f) := by
  cases e with
  | var x =>
    rcases ask_var_cases hf x with ⟨-, -, hask⟩ | ⟨hname, -, -⟩ | ⟨-, hx, -, -⟩
    · exact hask
    · exact absurd (List.mem_map_of_mem h) hname
    · exact absurd h hx
  | constraint c =>
    rcases ask_constraint_cases hf c with ⟨-, -, hask⟩ | ⟨hname, -, -⟩ | ⟨-, hc, -, -⟩
    · exact hask
    · exact absurd (List.mem_map_of_mem h) hname
    · exact absurd h hc

/-- An entity that can be formulated is answered with its own expressions, and any other entity is
refused without a trace. -/
theorem ask_eq (hf : f.Consistent) (e : Entity) :
    f.Admits e ∧ (f.ask e).1 = .ok e.exprs ∨ ¬ f.Admits e ∧ ∃ why, f.ask e = (.error why, f) := by
  cases e with
  | var x =>
    rcases ask_var_cases hf x with ⟨-, hadmits, hask⟩ | ⟨-, hadmits, hask⟩ |
      ⟨why, -, hadmits, hask⟩
    · exact .inl ⟨hadmits, congrArg Prod.fst hask⟩
    · exact .inl ⟨hadmits, congrArg Prod.fst hask⟩
    · exact .inr ⟨hadmits, why, hask⟩
  | constraint c =>
    rcases ask_constraint_cases hf c with ⟨-, hadmits, hask⟩ | ⟨-, hadmits, hask⟩ |
      ⟨why, -, hadmits, hask⟩
    · exact .inl ⟨hadmits, congrArg Prod.fst hask⟩
    · exact .inl ⟨hadmits, congrArg Prod.fst hask⟩
    · exact .inr ⟨hadmits, why, hask⟩

theorem Consistent.withVar (hf : f.Consistent) {x : Variable} (hx : x.name ∉ f.vars.map (·.name)) :
    Consistent { f with vars := f.vars ++ [x] } where
  vars := nodup_map_concat hf.vars hx
  constraints := hf.constraints
  declared c hc y hy := List.mem_append_left _ (hf.declared c hc y hy)
  supported := hf.supported
  penalties := hf.penalties

theorem Consistent.withConstraint (hf : f.Consistent) {c : Constraint}
    (hc : c.name ∉ f.constraints.map (·.name)) (hadmits : f.Admits (.constraint c)) :
    Consistent (f.withConstraint c) where
  vars := hf.vars
  constraints := nodup_map_concat hf.constraints hc
  declared := List.forall_mem_append.2 ⟨hf.declared, List.forall_mem_singleton.2 hadmits.2.1⟩
  supported := List.forall_mem_append.2 ⟨hf.supported, List.forall_mem_singleton.2 hadmits.2.2⟩
  penalties := by
    show f.penalties ++ _ = (f.constraints ++ [c]).filterMap _
    rw [List.filterMap_append, ← hf.penalties]
    cases hpen : penaltyOf? c <;> simp [hpen]

/-- So does every request, also one that is refused. -/
theorem Consistent.ask (hf : f.Consistent) (e : Entity) : (f.ask e).2.Consistent := by
  cases e with
  | var x =>
    rcases ask_var_cases hf x with ⟨-, -, hask⟩ | ⟨hname, -, hask⟩ | ⟨why, -, -, hask⟩
    · rw [hask]
      exact hf
    · rw [hask]
      exact hf.withVar hname
    · rw [hask]
      exact hf
  | constraint c =>
    rcases ask_constraint_cases hf c with ⟨-, -, hask⟩ | ⟨hname, hadmits, hask⟩ | ⟨why, -, -, hask⟩
    · rw [hask]
      exact hf
    · rw [hask]
      exact hf.withConstraint hname hadmits
    · rw [hask]
      exact hf

end OneRequest

/-! ### Sequences of requests -/

theorem eraseDups_append_of_subset {α : Type} [DecidableEq α] {as bs : List α} (h : bs ⊆ as) :
    (as ++ bs).eraseDups = as.eraseDups := by
  have hnone : bs.removeAll as = [] := by
    apply List.filter_eq_nil_iff.2
    intro b hb
    simpa using h hb
  rw [List.eraseDups_append, hnone, List.eraseDups_nil, List.append_nil]

theorem eraseDups_concat_of_notMem {α : Type} [DecidableEq α] {as : List α} {a : α} (h : a ∉ as) :
    (as ++ [a]).eraseDups = as.eraseDups ++ [a] := by
  rw [List.eraseDups_append]
  simp [List.removeAll, h, List.eraseDups_cons]

theorem filterMap_concat {α β : Type} (g : α → Option β) (as : List α) (a : α) :
    (as ++ [a]).filterMap g = as.filterMap g ++ (g a).toList := by
  rw [List.filterMap_append]
  cases h : g a <;> simp [h]

/-- The formulation holds what the log says was formulated, each entity once. -/
structure Remembers (log : List (Entity × Answer)) (f : Formulation) : Prop
    extends f.Consistent where
  /-- The variables are those that were formulated, in the order in which they came up. -/
  vars_eq : f.vars = (log.filterMap formulatedVar?).eraseDups
  /-- The constraints are those that were formulated, in the order in which they came up. -/
  constraints_eq : f.constraints = (log.filterMap formulatedConstraint?).eraseDups
  /-- An answer depends on the entity alone. -/
  answers : ∀ p ∈ log, ∀ es, p.2 = .ok es → es = p.1.exprs

theorem remembers_empty : Remembers [] empty :=
  ⟨consistent_empty, rfl, rfl, List.forall_mem_nil _⟩

section Step

variable {log : List (Entity × Answer)} {f : Formulation}

/-- An answer that tells of nothing new leaves the formulation in step with the log. -/
theorem Remembers.stay (h : Remembers log f) {p : Entity × Answer}
    (hvar : ∀ x ∈ formulatedVar? p, x ∈ f.vars)
    (hconstraint : ∀ c ∈ formulatedConstraint? p, c ∈ f.constraints)
    (hanswer : ∀ es, p.2 = .ok es → es = p.1.exprs) : Remembers (log ++ [p]) f where
  toConsistent := h.toConsistent
  vars_eq := by
    -- The log has a known variable already, so its last entry is erased.
    rw [filterMap_concat, eraseDups_append_of_subset, h.vars_eq]
    intro x hx
    have hmem := hvar x (Option.mem_toList.1 hx)
    rwa [h.vars_eq, List.mem_eraseDups] at hmem
  constraints_eq := by
    rw [filterMap_concat, eraseDups_append_of_subset, h.constraints_eq]
    intro c hc
    have hmem := hconstraint c (Option.mem_toList.1 hc)
    rwa [h.constraints_eq, List.mem_eraseDups] at hmem
  answers := List.forall_mem_append.2 ⟨h.answers, List.forall_mem_singleton.2 hanswer⟩

/-- An error is remembered as an answer, and nothing else changes. -/
theorem Remembers.stay_of_error (h : Remembers log f) (e : Entity) (why : FormulationError) :
    Remembers (log ++ [(e, .error why)]) f := by
  apply h.stay
  · cases e <;> rintro x ⟨⟩
  · cases e <;> rintro c ⟨⟩
  · rintro es ⟨⟩

/-- A new variable is remembered. -/
theorem Remembers.withVar (h : Remembers log f) {x : Variable}
    (hx : x.name ∉ f.vars.map (·.name)) :
    Remembers (log ++ [(.var x, .ok (variableExprs x))]) { f with vars := f.vars ++ [x] } where
  toConsistent := h.toConsistent.withVar hx
  vars_eq := by
    have hnew : x ∉ f.vars := fun hmem => hx (List.mem_map_of_mem hmem)
    rw [h.vars_eq, List.mem_eraseDups] at hnew
    rw [filterMap_concat, h.vars_eq]
    exact (eraseDups_concat_of_notMem hnew).symm
  constraints_eq := by
    rw [filterMap_concat]
    exact h.constraints_eq.trans (by simp [formulatedConstraint?])
  answers := by
    refine List.forall_mem_append.2 ⟨h.answers, List.forall_mem_singleton.2 ?_⟩
    rintro es ⟨⟩
    rfl

/-- A new constraint is remembered. -/
theorem Remembers.withConstraint (h : Remembers log f) {c : Constraint}
    (hc : c.name ∉ f.constraints.map (·.name)) (hadmits : f.Admits (.constraint c)) :
    Remembers (log ++ [(.constraint c, .ok (constraintExprs c))]) (f.withConstraint c) where
  toConsistent := h.toConsistent.withConstraint hc hadmits
  vars_eq := by
    rw [filterMap_concat]
    exact h.vars_eq.trans (by simp [formulatedVar?])
  constraints_eq := by
    have hnew : c ∉ f.constraints := fun hmem => hc (List.mem_map_of_mem hmem)
    rw [h.constraints_eq, List.mem_eraseDups] at hnew
    rw [filterMap_concat]
    show f.constraints ++ [c] = _
    rw [h.constraints_eq]
    exact (eraseDups_concat_of_notMem hnew).symm
  answers := by
    refine List.forall_mem_append.2 ⟨h.answers, List.forall_mem_singleton.2 ?_⟩
    rintro es ⟨⟩
    rfl

/-- **Step.** A request keeps the formulation in step with the log. -/
theorem Remembers.ask (h : Remembers log f) (e : Entity) :
    Remembers (log ++ [(e, (f.ask e).1)]) (f.ask e).2 := by
  cases e with
  | var x =>
    rcases ask_var_cases h.toConsistent x with ⟨hx, -, hask⟩ | ⟨hname, -, hask⟩ | ⟨why, -, -, hask⟩
    · rw [hask]
      apply h.stay
      · rintro y ⟨⟩
        exact hx
      · rintro c ⟨⟩
      · rintro es ⟨⟩
        rfl
    · rw [hask]
      exact h.withVar hname
    · rw [hask]
      exact h.stay_of_error (.var x) why
  | constraint c =>
    rcases ask_constraint_cases h.toConsistent c with ⟨hc, -, hask⟩ | ⟨hname, hadmits, hask⟩ |
      ⟨why, -, -, hask⟩
    · rw [hask]
      apply h.stay
      · rintro x ⟨⟩
      · rintro d ⟨⟩
        exact hc
      · rintro es ⟨⟩
        rfl
    · rw [hask]
      exact h.withConstraint hname hadmits
    · rw [hask]
      exact h.stay_of_error (.constraint c) why

end Step

/-- **Run.** A sequence of requests keeps the formulation in step with the log. -/
theorem Remembers.askAll {log : List (Entity × Answer)} {f : Formulation} (h : Remembers log f)
    (es : List Entity) : Remembers (log ++ (f.askAll es).1) (f.askAll es).2 := by
  induction es generalizing log f with
  | nil => simpa [Formulation.askAll] using h
  | cons e es ih =>
    have hrest := ih (h.ask e)
    rw [List.append_assoc, List.singleton_append] at hrest
    exact hrest

/-- **Memory.** After any requests, the formulation remembers them. -/
theorem remembers_askAll (es : List Entity) :
    Remembers (empty.askAll es).1 (empty.askAll es).2 := by
  simpa using remembers_empty.askAll es

/-- What was formulated according to the log is known. -/
theorem Remembers.knows {log : List (Entity × Answer)} {f : Formulation} (h : Remembers log f)
    {e : Entity} {es : List Expr} (hmem : (e, .ok es) ∈ log) : f.Knows e := by
  cases e with
  | var x =>
    show x ∈ f.vars
    rw [h.vars_eq, List.mem_eraseDups]
    exact List.mem_filterMap.2 ⟨_, hmem, rfl⟩
  | constraint c =>
    show c ∈ f.constraints
    rw [h.constraints_eq, List.mem_eraseDups]
    exact List.mem_filterMap.2 ⟨_, hmem, rfl⟩

/-! ### Penalties -/

/-- The penalty is the one of the soft constraint. -/
structure Describes (c : Constraint) (p : Penalty) : Prop where
  /-- It bears the name of the constraint. -/
  constraint : p.constraint = c.name
  /-- Its variable is named after the constraint. -/
  name : p.name = Names.penalty c.name
  /-- A unit costs what the constraint weighs. -/
  price : c.weight = .soft p.price
  /-- It ranges up to the greatest violation. -/
  bound : c.penaltyBound? = some p.bound
  /-- What is said of the constraint declares its variable. -/
  declared : Expr.intRange p.name 0 p.bound ∈ constraintExprs c

/-- The penalty is declared with the largest possible violation. -/
theorem declare_mem_relaxation (name : String) (op : Comparator) (rhs lo hi : Int) :
    Expr.intRange (Names.penalty name) 0 (op.maxViolation rhs lo hi) ∈
      (relaxation name op rhs lo hi).2 := by
  cases op <;> exact List.mem_cons_self

/-- The penalty of a soft constraint describes it. -/
theorem describes_penaltyFor {c : Constraint} (hsoft : c.isSoft)
    (hdiff : isSoftAllDifferent c = false) : Describes c (penaltyFor c) := by
  cases hweight : c.weight with
  | hard => simp [Constraint.isSoft, hweight, Weight.isHard] at hsoft
  | soft price =>
    have hhard : c.isHard = false := by simp [Constraint.isHard, hweight, Weight.isHard]
    obtain ⟨bound, hbound⟩ := exists_penaltyBound hdiff hweight
    refine ⟨rfl, rfl, ?_, ?_, ?_⟩
    · rw [hweight, penaltyFor, hweight]
      rfl
    · rw [penaltyFor, hbound]
      rfl
    · -- A relaxed constraint begins with the declaration of its penalty, whatever its kind.
      unfold constraintExprs penaltyFor Constraint.penaltyBound?
      cases hbody : c.body with
      | linear terms op rhs =>
        simp only [hweight, hhard, comparisonExprs]
        exact List.mem_append_left _ (declare_mem_relaxation _ _ _ _ _)
      | pseudoBoolean terms op rhs =>
        simp only [hweight, hhard, comparisonExprs]
        exact List.mem_append_left _ (declare_mem_relaxation _ _ _ _ _)
      | conflict terms =>
        simp only [hweight, hhard, conflictExprs]
        exact List.mem_cons_self
      | allDifferent vars => simp [Constraint.penaltyBound?, hbody] at hbound

/-- The penalties are those of the soft constraints, in their order. -/
theorem Consistent.penalties_eq {f : Formulation} (hf : f.Consistent) :
    f.penalties = (f.constraints.filter (·.isSoft)).map penaltyFor := by
  rw [hf.penalties, filterMap_penaltyOf? hf.supported]

/-- The penalties are those of the soft constraints, one for each and in the same order. -/
theorem Consistent.forall₂_describes {f : Formulation} (hf : f.Consistent) :
    List.Forall₂ Describes (f.constraints.filter (·.isSoft)) f.penalties := by
  rw [hf.penalties_eq, List.forall₂_map_right_iff, List.forall₂_same]
  intro c hc
  obtain ⟨hmem, hsoft⟩ := List.mem_filter.1 hc
  exact describes_penaltyFor hsoft (hf.supported c hmem)

/-- Each constraint has one penalty at most. -/
theorem Consistent.nodup_penalties {f : Formulation} (hf : f.Consistent) :
    (f.penalties.map (·.constraint)).Nodup := by
  rw [hf.penalties_eq, List.map_map]
  exact hf.constraints.sublist (List.filter_sublist.map _)

/-- The penalty of a soft constraint is found by its name. -/
theorem Consistent.penalty_eq_ok {f : Formulation} (hf : f.Consistent) {c : Constraint}
    (hc : c ∈ f.constraints) (hsoft : c.isSoft) : f.penalty c.name = .ok (penaltyFor c) := by
  have hmem : penaltyFor c ∈ f.penalties := by
    rw [hf.penalties_eq]
    exact List.mem_map_of_mem (List.mem_filter.2 ⟨hc, hsoft⟩)
  have hfind : f.penalties.find? (·.constraint = c.name) = some (penaltyFor c) :=
    find?_key hf.nodup_penalties hmem
  rw [penalty, hfind]

/-- There is no penalty for other names. -/
theorem Consistent.penalty_eq_error {f : Formulation} (hf : f.Consistent) {name : String}
    (h : ∀ c ∈ f.constraints, c.isSoft → c.name ≠ name) :
    f.penalty name = .error (.noPenalty name) := by
  have hfind : f.penalties.find? (·.constraint = name) = none := by
    apply find?_key_eq_none
    rw [hf.penalties_eq, List.map_map]
    intro hmem
    obtain ⟨c, hc, hname⟩ := List.mem_map.1 hmem
    obtain ⟨hc, hsoft⟩ := List.mem_filter.1 hc
    exact h c hc hsoft hname
  rw [penalty, hfind]

end Formulation

end WeightedCsp

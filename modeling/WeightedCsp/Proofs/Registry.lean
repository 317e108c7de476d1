import Mathlib
import WeightedCsp.Proofs.Model

/-!
# What a model keeps of the calls on it

A model is only ever changed by three calls, and each of them may be refused.  `Model.callAll` is
any sequence of calls on the empty model, each on whatever the call before it has left, with a log
of the replies.  `Registers` ties the log to the model: the entities of the model are those of the
calls that went through, in their order, the tables of places are in step with them, and constraints
speak of registered variables.  One call keeps this (`Registers.call`), so every sequence does
(`registers_callAll`).

What the rest of the library relies on follows from it (`callAll_registry`).  A name is given once
and leads to its entity, a call goes through exactly if the model admits it and has changed nothing
if it does not, the tiers cut up the soft constraints, and an assignment that has a value for each
registered variable is never found to lack one.
-/

namespace WeightedCsp

namespace Model

/-! ### Calls -/

/-- A call that is to register an entity. -/
inductive Call where
  | addVariable (x : Variable)
  | newVariable (name : String) (domain : Domain)
  | addConstraint (c : Constraint)

/-- What a call comes back with. -/
inductive Reply where
  | done
  | created (x : Variable)
  | refused (e : ModelError)
  | broken (t : Fault)

namespace Reply

/-- The call did not go through. -/
def isRefused : Reply → Bool
  | .done => false
  | .created _ => false
  | .refused _ => true
  | .broken _ => true

/-- The reply that tells the result of a step, and the model that the step has left behind, also
where it failed. -/
def ofResult {α : Type} (told : α → Reply) :
    EStateM.Result (Failure ModelError) Model α → Reply × Model
  | .ok a m => (told a, m)
  | .error (.error e) m => (.refused e, m)
  | .error (.fault t) m => (.broken t, m)

end Reply

/-- The reply to a call and the model after it. -/
def call (m : Model) : Call → Reply × Model
  | .addVariable x => Reply.ofResult (fun _ => .done) (addVariable x m)
  | .newVariable name domain => Reply.ofResult .created (newVariable name domain m)
  | .addConstraint c => Reply.ofResult (fun _ => .done) (addConstraint c m)

/-- A call with the reply to it. -/
abbrev Entry : Type := Call × Reply

/-- The variable that was registered. -/
def Entry.var? : Entry → Option Variable
  | (.addVariable x, .done) => some x
  | (_, .created x) => some x
  | _ => none

/-- The constraint that was registered. -/
def Entry.constraint? : Entry → Option Constraint
  | (.addConstraint c, .done) => some c
  | _ => none

/-- The log of a sequence of calls and the model after them. -/
def callAll (m : Model) : List Call → List Entry × Model
  | [] => ([], m)
  | k :: ks =>
    let (r, m') := m.call k
    let (log, m'') := m'.callAll ks
    ((k, r) :: log, m'')

/-- The model has room for what the call is to register. -/
def Admits (m : Model) : Call → Prop
  | .addVariable x => x.name ∉ m.vars.map (·.name)
  | .newVariable name _ => Identifier.isValid name ∧ name ∉ m.vars.map (·.name)
  | .addConstraint c => c.name ∉ m.constraints.map (·.name) ∧ ∀ x ∈ c.vars, x ∈ m.vars

/-! ### One call -/

section OneCall

variable {m : Model}

/-- **What a call can do.** It registers a variable, which it hands out if it has built it, or it
registers a constraint, or it is refused with an error and leaves the model as it was. -/
theorem Indexed.call_cases (hm : m.Indexed) (k : Call) :
    (∃ x r, m.call k = (r, m.withVariable x) ∧ m.Admits k ∧ x.name ∉ m.vars.map (·.name) ∧
      Entry.var? (k, r) = some x ∧ Entry.constraint? (k, r) = none ∧ r.isRefused = false) ∨
    (∃ c, k = .addConstraint c ∧ m.Admits k ∧ m.call k = (.done, m.withConstraint c)) ∨
    (∃ e, m.call k = (.refused e, m) ∧ ¬ m.Admits k) := by
  cases k with
  -- Each call checks what its admission says and does nothing before that.
  | addVariable x =>
    rw [call, hm.addVariable_apply]
    split_ifs with htaken
    · exact .inr (.inr ⟨_, rfl, fun hfresh => hfresh htaken⟩)
    · exact .inl ⟨x, .done, rfl, htaken, htaken, rfl, rfl, rfl⟩
  | newVariable name domain =>
    rw [call, hm.newVariable_apply]
    split_ifs with hvalid htaken
    · exact .inr (.inr ⟨_, rfl, fun h => h.2 htaken⟩)
    · exact .inl ⟨⟨name, domain⟩, .created ⟨name, domain⟩, rfl, ⟨hvalid, htaken⟩, htaken, rfl, rfl,
        rfl⟩
    · exact .inr (.inr ⟨_, rfl, fun h => hvalid h.1⟩)
  | addConstraint c =>
    rw [call, hm.addConstraint_apply]
    split_ifs with htaken
    · exact .inr (.inr ⟨_, rfl, fun h => h.1 htaken⟩)
    · cases hfind : c.vars.find? (· ∉ m.vars) with
      | some x =>
        have hx : x ∉ m.vars := by simpa using List.find?_some hfind
        exact .inr (.inr ⟨_, rfl, fun h => hx (h.2 x (List.mem_of_find?_eq_some hfind))⟩)
      | none =>
        have hvars : ∀ x ∈ c.vars, x ∈ m.vars := by simpa using List.find?_eq_none.1 hfind
        exact .inr (.inl ⟨c, rfl, ⟨htaken, hvars⟩, rfl⟩)

/-- A call succeeds if the model admits it. -/
theorem Indexed.call_admits (hm : m.Indexed) (k : Call) :
    (m.call k).1.isRefused = false ↔ m.Admits k := by
  rcases hm.call_cases k with ⟨x, r, hcall, hadmits, -, -, -, hr⟩ | ⟨c, -, hadmits, hcall⟩ |
    ⟨e, hcall, hadmits⟩
  · simp [hcall, hadmits, hr]
  · simp [hcall, hadmits, Reply.isRefused]
  · simp [hcall, hadmits, Reply.isRefused]

/-- A call that does not go through has an error to tell, and leaves the model as it was. -/
theorem Indexed.call_of_refused (hm : m.Indexed) (k : Call)
    (h : (m.call k).1.isRefused = true) : ∃ e, m.call k = (.refused e, m) := by
  rcases hm.call_cases k with ⟨x, r, hcall, -, -, -, -, hr⟩ | ⟨c, -, -, hcall⟩ | ⟨e, hcall, -⟩
  · -- The replies of the first two cases are not refusals.
    simp [hcall, hr] at h
  · simp [hcall, Reply.isRefused] at h
  · exact ⟨e, hcall⟩

end OneCall

/-! ### Sequences of calls -/

/-- The model holds what the log says was registered, and its tables are in step. -/
structure Registers (log : List Entry) (m : Model) : Prop extends m.Indexed where
  /-- The variables are those that were registered, in order. -/
  vars : m.vars = log.filterMap Entry.var?
  /-- The constraints are those that were registered, in order. -/
  constraints : m.constraints = log.filterMap Entry.constraint?
  /-- Constraints speak of registered variables, with the domains that were registered. -/
  declared : ∀ c ∈ m.constraints, ∀ x ∈ c.vars, x ∈ m.vars

theorem registers_empty : Registers [] empty where
  toIndexed := indexed_empty
  vars := rfl
  constraints := rfl
  declared := List.forall_mem_nil _

/-- **Step.** A call keeps the model in step with the log. -/
theorem Registers.call {log : List Entry} {m : Model} (h : Registers log m) (k : Call) :
    Registers (log ++ [(k, (m.call k).1)]) (m.call k).2 := by
  rcases h.call_cases k with ⟨x, r, hcall, -, hfresh, hvar, hconstraint, -⟩ |
    ⟨c, rfl, ⟨hname, hvars⟩, hcall⟩ | ⟨e, hcall, -⟩
  · rw [hcall]
    refine ⟨h.toIndexed.withVariable hfresh, ?_, ?_, fun c hc y hy => ?_⟩
    · simp [withVariable, h.vars, hvar]
    · simp [withVariable, h.constraints, hconstraint]
    · exact List.mem_append_left _ (h.declared c hc y hy)
  · rw [hcall]
    refine ⟨h.toIndexed.withConstraint hname, ?_, ?_, ?_⟩
    · simp [withConstraint, h.vars, Entry.var?]
    · simp [withConstraint, h.constraints, Entry.constraint?]
    · exact List.forall_mem_append.2 ⟨h.declared, List.forall_mem_singleton.2 hvars⟩
  · rw [hcall]
    refine ⟨h.toIndexed, ?_, ?_, h.declared⟩
    · cases k <;> simp [h.vars, Entry.var?]
    · cases k <;> simp [h.constraints, Entry.constraint?]

/-- **Run.** Every sequence of calls keeps the model in step with the log. -/
theorem Registers.callAll {log : List Entry} {m : Model} (h : Registers log m) (ks : List Call) :
    Registers (log ++ (m.callAll ks).1) (m.callAll ks).2 := by
  induction ks generalizing log m with
  | nil => simpa [Model.callAll] using h
  | cons k ks ih =>
    have hrest := ih (h.call k)
    rw [List.append_assoc, List.singleton_append] at hrest
    exact hrest

/-- **Registers.** After any calls, the model registers what was not refused. -/
theorem registers_callAll (ks : List Call) :
    Registers (empty.callAll ks).1 (empty.callAll ks).2 := by
  simpa using registers_empty.callAll ks

end Model

/-! ### Tiers -/

namespace Tier

/-- Inserting a constraint adds it to the members. -/
theorem flatMap_insert_perm (price : Nat) (c : Constraint) (ts : List Tier) :
    ((insert price c ts).flatMap (·.members)).Perm (c :: ts.flatMap (·.members)) := by
  induction ts with
  | nil => exact List.Perm.refl _
  | cons t ts ih =>
    unfold insert
    split_ifs
    · rw [List.flatMap_cons, List.flatMap_cons, List.append_assoc]
      exact List.perm_middle
    · exact List.Perm.refl _
    · rw [List.flatMap_cons, List.flatMap_cons]
      exact (List.Perm.append_left _ ih).trans List.perm_middle

theorem members_ne_nil_insert {price : Nat} {c : Constraint} {ts : List Tier}
    (h : ∀ t ∈ ts, t.members ≠ []) : ∀ t ∈ insert price c ts, t.members ≠ [] := by
  induction ts with
  | nil => simp [insert]
  | cons t ts ih =>
    obtain ⟨hhead, hrest⟩ := List.forall_mem_cons.1 h
    unfold insert
    split_ifs
    · exact List.forall_mem_cons.2 ⟨by simp, hrest⟩
    · exact List.forall_mem_cons.2 ⟨by simp, h⟩
    · exact List.forall_mem_cons.2 ⟨hhead, ih hrest⟩

/-- The members of all tiers are the soft constraints. -/
theorem flatMap_ofConstraints_perm (cs : List Constraint) :
    ((ofConstraints cs).flatMap (·.members)).Perm (cs.filter (·.isSoft)) := by
  -- Constraints are inserted in their order, so the induction takes the last one off.
  induction cs using List.reverseRecOn with
  | nil => exact List.Perm.refl _
  | append_singleton cs c ih =>
    rw [ofConstraints_concat, List.filter_append]
    cases hc : c.weight with
    | hard => simpa [Constraint.isSoft, Weight.isHard, hc] using ih
    | soft w =>
      have hsoft : [c].filter (·.isSoft) = [c] := by simp [Constraint.isSoft, Weight.isHard, hc]
      rw [hsoft]
      refine (flatMap_insert_perm w c _).trans ((List.Perm.cons c ih).trans ?_)
      exact (List.perm_append_singleton c _).symm

theorem members_ne_nil_ofConstraints (cs : List Constraint) :
    ∀ t ∈ ofConstraints cs, t.members ≠ [] := by
  induction cs using List.reverseRecOn with
  | nil => exact List.forall_mem_nil _
  | append_singleton cs c ih =>
    rw [ofConstraints_concat]
    cases c.weight with
    | hard => exact ih
    | soft w => exact members_ne_nil_insert ih

/-- The tiers cut a list of constraints up by price, the highest price first. -/
structure Partitions (cs : List Constraint) (ts : List Tier) : Prop where
  /-- The prices fall strictly. -/
  falling : (ts.map (·.price)).Pairwise (· > ·)
  /-- A tier has all the constraints of its price, in the order of the list. -/
  members : ∀ t ∈ ts, t.members = cs.filter fun c => c.weight = .soft t.price
  /-- No tier is empty. -/
  nonempty : ∀ t ∈ ts, t.members ≠ []
  /-- Together the tiers have each constraint as often as the list. -/
  perm : (ts.flatMap (·.members)).Perm cs

end Tier

namespace Model

theorem partitions_tiers (m : Model) : Tier.Partitions m.softConstraints m.tiers := by
  refine ⟨m.falling_tiers, fun t ht => ?_, Tier.members_ne_nil_ofConstraints _,
    Tier.flatMap_ofConstraints_perm _⟩
  rw [members_tiers ht, ofPrice_eq_filter]
  refine List.filter_congr fun c hc => ?_
  obtain ⟨-, price, hweight⟩ := mem_softConstraints.1 hc
  simp [hweight, Weight.price]

end Model

/-! ### Evaluation -/

/-- The computation does not fail except for an overflow in the constraint. -/
def OverflowsIn {α : Type} (name : String) (r : Except ModelError α) : Prop :=
  ∀ e, r = .error e → e = .overflow name

namespace OverflowsIn

variable {α β : Type} {name : String} {a : Assignment}

theorem ok (v : α) : OverflowsIn name (.ok v) := by
  rintro e ⟨⟩

/-- Sequencing of computations that fail by an overflow only. -/
theorem bind {r : Except ModelError α} {f : α → Except ModelError β} (hr : OverflowsIn name r)
    (hf : ∀ v, OverflowsIn name (f v)) : OverflowsIn name (r >>= f) := by
  cases r with
  | ok v => exact hf v
  | error e => exact fun e' h => hr e' (by cases h; rfl)

theorem orOverflow (v : Option Int) : OverflowsIn name (orOverflow name v) := by
  cases v with
  | some v => exact ok v
  | none =>
    rintro e ⟨⟩
    rfl

theorem value {x : Variable} (hx : (a x.name).isSome) : OverflowsIn name (a.value x) := by
  obtain ⟨v, hv⟩ := Option.isSome_iff_exists.1 hx
  rw [Assignment.value, hv]
  exact ok v

/-- A linear sum over assigned variables can only overflow. -/
theorem linearSum {terms : List LinearTerm} (h : ∀ t ∈ terms, (a t.var.name).isSome) (acc : Int) :
    OverflowsIn name (linearSum name a acc terms) := by
  induction terms generalizing acc with
  | nil => exact ok acc
  | cons t terms ih =>
    obtain ⟨hhead, hrest⟩ := List.forall_mem_cons.1 h
    exact (value hhead).bind fun _ => (orOverflow _).bind fun acc => ih hrest acc

theorem indicatorSum {terms : List IndicatorTerm} (h : ∀ t ∈ terms, (a t.var.name).isSome)
    (acc : Int) : OverflowsIn name (indicatorSum name a acc terms) := by
  induction terms generalizing acc with
  | nil => exact ok acc
  | cons t terms ih =>
    obtain ⟨hhead, hrest⟩ := List.forall_mem_cons.1 h
    apply (value hhead).bind
    intro v
    split_ifs
    · exact (orOverflow _).bind fun acc => ih hrest acc
    · exact ih hrest acc

/-- Predicates over assigned variables do not fail. -/
theorem allPredicates {terms : List Predicate} (h : ∀ t ∈ terms, (a t.var.name).isSome) :
    OverflowsIn name (allPredicates a terms) := by
  induction terms with
  | nil => exact ok true
  | cons t terms ih =>
    obtain ⟨hhead, hrest⟩ := List.forall_mem_cons.1 h
    exact (value hhead).bind fun _ => (ih hrest).bind fun _ => ok _

theorem values {xs : List Variable} (h : ∀ x ∈ xs, (a x.name).isSome) :
    OverflowsIn name (xs.mapM a.value) := by
  induction xs with
  | nil => exact ok []
  | cons x xs ih =>
    obtain ⟨hhead, hrest⟩ := List.forall_mem_cons.1 h
    rw [List.mapM_cons]
    exact (value hhead).bind fun _ => (ih hrest).bind fun _ => ok _

/-- **Violations** of constraints over assigned variables can only overflow. -/
theorem violation {c : Constraint} (h : ∀ x ∈ c.vars, (a x.name).isSome) :
    OverflowsIn c.name (c.violation a) := by
  unfold Constraint.vars at h
  unfold Constraint.violation
  cases hbody : c.body with
  | linear terms op rhs =>
    rw [hbody] at h
    exact (linearSum (List.forall_mem_map.1 h) 0).bind fun _ => orOverflow _
  | pseudoBoolean terms op rhs =>
    rw [hbody] at h
    exact (indicatorSum (List.forall_mem_map.1 h) 0).bind fun _ => orOverflow _
  | conflict terms =>
    rw [hbody] at h
    exact (allPredicates (List.forall_mem_map.1 h)).bind fun _ => ok _
  | allDifferent vars =>
    rw [hbody] at h
    exact (values h).bind fun _ => ok _

end OverflowsIn

namespace Model

/-- An assignment that has a value for each variable of the constraints can only be refused for an
overflow. -/
theorem evaluate_eq_error {m : Model} {a : Assignment}
    (h : ∀ c ∈ m.constraints, ∀ x ∈ c.vars, (a x.name).isSome) {e : ModelError}
    (he : m.evaluate a = .error e) : ∃ c ∈ m.constraints, e = .overflow c.name := by
  obtain ⟨c, hc, hviolation⟩ := Checked.mapM_eq_error he
  refine ⟨c, hc, ?_⟩
  exact (OverflowsIn.violation (h c hc)).bind (fun _ => OverflowsIn.ok _) e hviolation

/-! ### The registry -/

/-- What holds of a model with the log of the calls on it. -/
structure Registry (log : List Entry) (m : Model) : Prop extends Registers log m where
  /-- No two variables have the same name. -/
  varsDistinct : (m.vars.map (·.name)).Nodup
  /-- No two constraints have the same name. -/
  constraintsDistinct : (m.constraints.map (·.name)).Nodup
  /-- Looking up a name leads to the variable that was registered under it, and to nothing else. -/
  lookupVariable : ∀ name, ∃ found, m.lookupVariable name = .ok found ∧
    ∀ x, found = some x ↔ x ∈ m.vars ∧ x.name = name
  /-- Looking up a name leads to the constraint that was registered under it, and to nothing
  else. -/
  lookupConstraint : ∀ name, ∃ found, m.lookupConstraint name = .ok found ∧
    ∀ c, found = some c ↔ c ∈ m.constraints ∧ c.name = name
  /-- A call goes through exactly if the model admits it. -/
  admission : ∀ k, (m.call k).1.isRefused = false ↔ m.Admits k
  /-- A call that does not go through tells an error and has changed nothing. -/
  refusal : ∀ k, (m.call k).1.isRefused = true → ∃ e, m.call k = (.refused e, m)
  /-- The tiers cut up the soft constraints. -/
  tiers : Tier.Partitions m.softConstraints m.tiers
  /-- An assignment that has a value for each registered variable is never found to lack one. -/
  evaluate : ∀ a : Assignment, (∀ x ∈ m.vars, (a x.name).isSome) → ∀ e, m.evaluate a = .error e →
    ∃ c ∈ m.constraints, e = .overflow c.name

theorem Registers.registry {log : List Entry} {m : Model} (h : Registers log m) :
    Registry log m where
  toRegisters := h
  varsDistinct := h.varsNodup
  constraintsDistinct := h.constraintsNodup
  lookupVariable name := ⟨_, h.lookupVariable_eq name, fun _ => find?_key_eq_some h.varsNodup⟩
  lookupConstraint name :=
    ⟨_, h.lookupConstraint_eq name, fun _ => find?_key_eq_some h.constraintsNodup⟩
  admission := h.call_admits
  refusal := h.call_of_refused
  tiers := partitions_tiers m
  evaluate _ ha _ he := evaluate_eq_error (fun c hc x hx => ha x (h.declared c hc x hx)) he

/-- **The registry.** After every sequence of calls on an empty model, whatever they were about and
whichever of them were refused, the model holds exactly what was registered, in order. -/
theorem callAll_registry (ks : List Call) :
    Registry (empty.callAll ks).1 (empty.callAll ks).2 :=
  (registers_callAll ks).registry

-- The name of a variable with another domain does not make it a registered variable.
example : (empty.callAll [.addVariable Sample.y,
    .addConstraint ⟨"c", .hard, .allDifferent [⟨"y", Sample.x.domain⟩]⟩]).1.map (·.2.isRefused) =
      [false, true] := rfl

end Model

end WeightedCsp

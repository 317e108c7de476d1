import WeightedCsp.Proofs.Csp.Entries
import WeightedCsp.Proofs.Method.Calls

/-!
# The names that a method declares

Whatever steps are called, every name that is declared in the session has a purpose for the model,
and two purposes have the same name only if they clash (`Strategy.declared_names`).

Clashes do happen, and nothing refuses them: both variables are declared over zero and one, so the
second declaration has no effect, and the penalty of a constraint is tied to the value of a
variable.  In `Strategy.clash_misleads` a method therefore reports that nothing is feasible,
although something is.
-/

namespace WeightedCsp

namespace Session

variable {σ : Type}

/-- All names that are declared or about to be have a property. -/
def Declares (p : String → Prop) (s : Session σ) : Prop :=
  (∀ q ∈ s.vars, p q.1) ∧ ∀ name ∈ Expr.declaredBy s.pending, p name

/-- The property of names is kept. -/
def Retains (p : String → Prop) (s s' : Session σ) : Prop := s.Declares p → s'.Declares p

theorem Retains.trans {p : String → Prop} {s s' s'' : Session σ} (h₁ : Retains p s s')
    (h₂ : Retains p s' s'') : Retains p s s'' := fun h => h₂ (h₁ h)

section Retains

variable (b : Backend σ) (p : String → Prop)

theorem retains_of_after_eq {ε α : Type} {x : Step ε (Session σ) α} (h : ∀ s, x.after s = s) :
    x.Follows (Retains p) := Step.follows_of_after_eq (fun _ => id) h

/-- A batch declares names of what is queued only. -/
theorem retains_commit : (commit b).Follows (Retains p) := by
  intro s hs
  refine ⟨fun q hq => ?_, ?_⟩
  · rcases names_commit b s q hq with hold | hnew
    · obtain ⟨r, hr, heq⟩ := List.mem_map.1 hold
      rw [← heq]
      exact hs.1 r hr
    · exact hs.2 q.1 hnew
  · rw [pending_commit]
    intro name hname
    cases hname

theorem retains_assume (name : String) (op : Comparator) (bound : Int) :
    (assume b name op bound).Follows (Retains p) := by
  refine (retains_commit b p).bind Retains.trans fun _ => ?_
  refine (retains_of_after_eq p Step.after_get).bind Retains.trans fun t => ?_
  split
  · exact retains_of_after_eq p (Step.after_fail _)
  · refine (retains_of_after_eq p (Step.after_checked _)).bind Retains.trans fun atoms => ?_
    exact fun s hs => hs

theorem retains_solve (limit : Option Nat) : (solve b limit).Follows (Retains p) := by
  refine (retains_commit b p).bind Retains.trans fun _ s hs => ?_
  unfold Step.after
  simp only
  split_ifs
  · exact hs
  · exact hs
  · cases (b.solve s.backend s.assumptions limit).1 with
    | error message => exact hs
    | ok answer => cases answer <;> exact hs

end Retains

end Session

namespace Optimizer

variable {σ : Type} {b : Backend σ} {m : Model} {o o' : Optimizer σ}

/-- The optimizer is for the model, and all its names have a purpose. -/
def Explained (m : Model) (o : Optimizer σ) : Prop :=
  o.model = m ∧ o.session.Declares m.Explains

/-- A move says nothing that the model does not explain. -/
theorem Move.explained (h : Move b o o') (ho : o.Explained m) : o'.Explained m := by
  obtain ⟨hmodel, hnames⟩ := ho
  refine ⟨h.later.model.trans hmodel, ?_⟩
  cases h with
  | note h =>
    rw [h.session]
    exact hnames
  | queue hes =>
    rw [hmodel] at hes
    refine ⟨hnames.1, ?_⟩
    show m.ExplainsAll (o.session.pending ++ _)
    exact Model.explainsAll_append.2 ⟨hnames.2, hes⟩
  | encode _ h => exact (Session.retains_commit b _).ok h hnames
  | assume _ h => exact (Session.retains_assume b _ _ _ _).ok h hnames
  | assumeFails _ _ h => exact (Session.retains_assume b _ _ _ _).error h hnames
  | ask _ h => exact (Session.retains_solve b _ _).ok h hnames
  | askFails _ _ h => exact (Session.retains_solve b _ _).error h hnames
  | formulated _ _ | skip | record _ | enter _ _ _ => exact hnames

/-- A refused clause declares nothing that has no purpose. -/
theorem Refused.explained (h : Refused b o o') (ho : o.Explained m) : o'.Explained m := by
  cases h with
  | assume _ h => exact ⟨ho.1, (Session.retains_assume b _ _ _ _).error h ho.2⟩
  | ask _ h => exact ⟨ho.1, (Session.retains_solve b _ _).error h ho.2⟩

end Optimizer

namespace Strategy

open Optimizer

variable {σ : Type} {b : Backend σ}

/-- **Declared names.** Whatever steps are called and whether they fail or not, every name that is
declared has a purpose for the model; and two purposes have the same name if and only if they are
the same or clash. -/
theorem declared_names {s₀ : σ} {m : Model} (hm : m.Built) {options : MethodOptions}
    {o : Optimizer σ} (hnew : Optimizer.new b s₀ m options = .ok o) (run : LocalSearch.Runner)
    (strategy : Strategy) {cs : List Call} {log : List (Call × Option MethodError)}
    {o' : Optimizer σ} (hcalls : strategy.callAll b run cs o = .ok (log, o')) :
    (∀ name, o'.session.isDeclared name → m.Explains name) ∧
      ∀ p q : Names.Purpose, m.Needs p → m.Needs q → (p.name = q.name ↔ p = q ∨ p.Clash q) := by
  have hstart : o.Explained m := by
    obtain ⟨-, s, hstart, rfl⟩ := new_eq_ok.1 hnew
    obtain ⟨-, rfl⟩ := Session.start_eq_ok hstart
    refine ⟨rfl, fun q hq => ?_, fun name hname => ?_⟩
    · cases hq
    · cases hname
  have hend : o'.Explained m := by
    rcases callAll_induction (fun _ _ hmove => hmove.explained)
      (fun _ o₁ e s h ho => ⟨ho.1, (Session.retains_commit b _).error h ho.2⟩) hcalls
      False.elim hstart with hend | ⟨o₁, ho₁, hrefused⟩
    · exact hend
    · exact hrefused.explained ho₁
  refine ⟨fun name hname => ?_, fun p q hp hq => hm.wellFormed.name_eq_name_iff hp hq⟩
  obtain ⟨x, hx⟩ := Option.isSome_iff_exists.1 hname
  obtain ⟨before, after, heq, -⟩ := List.lookup_eq_some_iff.1 hx
  exact hend.2.1 (name, x) (by simp [heq])

end Strategy

namespace Model.Sample

/-- A truth value that begins like a penalty. -/
def posing : Variable := ⟨"P__c", .bit⟩

/-- The truth value is false. -/
def denied : Constraint := ⟨"low", .hard, .conflict [⟨posing, 1, true⟩]⟩

/-- The truth value should be true. -/
def desired : Constraint := ⟨"c__1", .soft 1, .conflict [⟨posing, 0, true⟩]⟩

/-- A soft constraint that a hard one rules out, and whose penalty has the name of an indicator. -/
def clashing : Model := .ofLists [posing] [denied, desired]

/-- The model is built by entering its parts. -/
theorem built_clashing : clashing.Built := by
  have hposing : Variable.new "P__c" posing.domain = .ok posing := rfl
  have hdenied : Constraint.conflict "low" .hard [⟨posing, 1, true⟩] = .ok denied := rfl
  have hdesired : Constraint.conflict "c__1" (.soft 1) [⟨posing, 0, true⟩] = .ok desired := rfl
  have hvars : Built (.ofLists [posing] []) := .addVariable .empty hposing rfl
  have hhard : Built (.ofLists [posing] [denied]) := .addConstraint hvars (.conflict hdenied) rfl
  exact .addConstraint hhard (.conflict hdesired) rfl

theorem feasible_clashing : clashing.Feasible fun _ => 0 := by
  refine built_clashing.wellFormed.feasible_iff.2 ⟨fun x hx => ?_, fun c hc hweight => ?_⟩
  · rw [List.mem_singleton.1 hx]
    decide
  · simp only [clashing, Model.ofLists, List.mem_cons, List.not_mem_nil, or_false] at hc
    rcases hc with rfl | rfl
    · simp [denied, Body.Holds, Predicate.Holds, posing]
    · cases hweight

end Model.Sample

namespace Strategy

open Optimizer Names

/-- The optimizer for a model with a clash. -/
def clashingStart : Optimizer (List Clause) := referenceStart Model.Sample.clashing

/-- The indicator of the truth value. -/
def posingIndicator : Purpose := .aux (.indicator "P__c" 1)

/-- The penalty of the soft constraint. -/
def desiredPenalty : Purpose := .aux (.penalty "c__1")

theorem needs_posingIndicator : Model.Sample.clashing.Needs posingIndicator :=
  .indicator (x := Model.Sample.posing) List.mem_cons_self (by decide)

theorem needs_desiredPenalty : Model.Sample.clashing.Needs desiredPenalty :=
  .penalty (c := Model.Sample.desired) (by decide)

theorem declared_names_clashing : ∃ log o',
    linear.callAll .reference (fun _ => .killed) [.formulate, .encode] clashingStart =
        .ok (log, o') ∧
      (∀ name, o'.session.isDeclared name → Model.Sample.clashing.Explains name) ∧
      (posingIndicator.name = desiredPenalty.name ↔
        posingIndicator = desiredPenalty ∨ posingIndicator.Clash desiredPenalty) := by
  have hrun : summary .reference linear (linear.callAll .reference (fun _ => .killed)
      [.formulate, .encode] clashingStart) =
      some ⟨[(.formulate, none), (.encode, none)], .encoded, 14, []⟩ := by
    cbv
  obtain ⟨o', report, heq, -⟩ := summary_eq_some hrun
  obtain ⟨hnames, hclash⟩ := declared_names Model.Sample.built_clashing
    (show Optimizer.new .reference [] Model.Sample.clashing {} = .ok clashingStart from rfl)
    (fun _ => .killed) linear heq
  exact ⟨_, o', heq, hnames, hclash _ _ needs_posingIndicator needs_desiredPenalty⟩

/-- An indicator and a penalty have the same name, and a model with a feasible assignment is
reported to have none. -/
theorem clash_misleads : Model.Sample.clashing.Built ∧
    Model.Sample.clashing.Needs posingIndicator ∧ Model.Sample.clashing.Needs desiredPenalty ∧
    posingIndicator ≠ desiredPenalty ∧ posingIndicator.name = desiredPenalty.name ∧
    Model.Sample.clashing.Feasible (fun _ => 0) ∧ ∃ r o',
      complete .reference (fun _ => .killed) .linear clashingStart = .ok r o' ∧ o'.Room ∧
        o'.Uninterrupted ∧ r.status = .infeasible := by
  have hrun : digest (complete .reference (fun _ => .killed) .linear clashingStart) =
      some ⟨.infeasible, none, [], 1, 14, true⟩ := by cbv
  obtain ⟨r, o', heq, hroom, hdigest⟩ := exists_run_of_digest hrun (by decide)
  refine ⟨Model.Sample.built_clashing, needs_posingIndicator, needs_desiredPenalty,
    fun h => (by cases h), by decide, Model.Sample.feasible_clashing, r, o', heq, hroom, ?_, ?_⟩
  · exact uninterrupted_of_answered (congrArg Digest.answered hdigest)
  · exact congrArg Digest.status hdigest

end Strategy

end WeightedCsp

import Mathlib.Logic.Function.Basic
import WeightedCsp.Proofs.Instance.Reading

/-!
# Gates

A gate is a fresh variable over `0` and `1` with two bounds on a sum of predicates.  Let `n` be the
number of predicates and `k` the number of negated ones.  The sum is at least `-k` and at most
`n - k`, and it is `n - k` exactly where all predicates hold.  So the upper bound says that the gate
is not `0` there, the lower bound that it is not `1` elsewhere, and each of them says nothing about
the other label of the gate (`met_gate_iff`): of both labels exactly one is possible, whatever the
labels of the other variables are (`andGate_reifies`).

The variable and the bounds are entered one after the other, and each can be refused.  What was
entered before a refusal stays in the instance: the variable of the gate without its bounds, or with
one of them (`Remains`, `andGate_refused`).
-/

namespace WeightedCsp.Instance

/-! ### Demands -/

/-- The labels meet the demand. -/
def Demand.Met (label : String → String) : Demand → Prop
  | .linear terms rel rhs => missedBy rel (total label terms) rhs = 0
  | .allDifferent vars => (vars.map label).Nodup

theorem met_le {label : String → String} {terms : List Term} {rhs : Int} :
    (Demand.linear terms .le rhs).Met label ↔ total label terms ≤ rhs := by
  show max (total label terms - rhs) 0 = 0 ↔ _
  omega

theorem met_ge {label : String → String} {terms : List Term} {rhs : Int} :
    (Demand.linear terms .ge rhs).Met label ↔ rhs ≤ total label terms := by
  show max (rhs - total label terms) 0 = 0 ↔ _
  omega

/-! ### What a gate says -/

/-- The upper bound of a gate. -/
def upperBound (name : String) (terms : List Term) (offset : Int) : Demand :=
  .linear (terms ++ [⟨-(terms.length : Int), name, "1"⟩]) .le (terms.length - 1 - offset)

/-- The lower bound of a gate. -/
def lowerBound (name : String) (terms : List Term) (offset : Int) : Demand :=
  .linear (terms ++ [⟨terms.length, name, "0"⟩]) .ge (terms.length - offset)

/-- The gate has one of its labels. -/
def GateLabel (label : String) : Prop := label = "0" ∨ label = "1"

/-- The bounds of a gate are met exactly where it shows whether all predicates hold. -/
theorem met_gate_iff {name : String} {terms : List Term} (hne : terms ≠ [])
    (hsigned : ∀ t ∈ terms, t.Signed) {label : String → String} (hgate : GateLabel (label name)) :
    (upperBound name terms (negatedTerms terms)).Met label ∧
        (lowerBound name terms (negatedTerms terms)).Met label ↔
      (label name = "1" ↔ ∀ t ∈ terms, t.Met label) := by
  obtain ⟨hleast, hgreatest, hiff⟩ := total_signed label hsigned
  have hpos : 0 < terms.length := List.length_pos_iff.2 hne
  rw [upperBound, lowerBound, met_le, met_ge, total_append, total_append, total_cons, total_cons,
    ← hiff]
  show total label terms + ((if label name = "1" then -(terms.length : Int) else 0) + 0) ≤ _ ∧
    _ ≤ total label terms + ((if label name = "0" then (terms.length : Int) else 0) + 0) ↔ _
  rcases hgate with hzero | hone
  · rw [hzero]
    simp only [String.reduceEq, ↓reduceIte, false_iff]
    omega
  · rw [hone]
    simp only [String.reduceEq, ↓reduceIte, true_iff]
    omega

/-- The predicates do not depend on the label of a variable they do not speak of. -/
theorem forall_met_update {name : String} {terms : List Term}
    (hfresh : ∀ t ∈ terms, t.var ≠ name) (label : String → String) (g : String) :
    (∀ t ∈ terms, t.Met (Function.update label name g)) ↔ ∀ t ∈ terms, t.Met label := by
  refine forall₂_congr fun t ht => ?_
  rw [Term.Met, Term.Met, Function.update_of_ne (hfresh t ht)]

/-- **Extensions.** Whatever the other labels are, just one label of the gate meets its bounds. -/
theorem existsUnique_gate {name : String} {terms : List Term} (hne : terms ≠ [])
    (hsigned : ∀ t ∈ terms, t.Signed) (hfresh : ∀ t ∈ terms, t.var ≠ name)
    (label : String → String) :
    ∃! g, GateLabel g ∧
      (upperBound name terms (negatedTerms terms)).Met (Function.update label name g) ∧
      (lowerBound name terms (negatedTerms terms)).Met (Function.update label name g) := by
  have hmet : ∀ g, GateLabel g →
      ((upperBound name terms (negatedTerms terms)).Met (Function.update label name g) ∧
        (lowerBound name terms (negatedTerms terms)).Met (Function.update label name g) ↔
      (g = "1" ↔ ∀ t ∈ terms, t.Met label)) := by
    intro g hg
    have hself : Function.update label name g name = g := Function.update_self name g label
    rw [met_gate_iff hne hsigned (by rwa [hself]), hself, forall_met_update hfresh]
  by_cases hall : ∀ t ∈ terms, t.Met label
  · refine ⟨"1", ⟨.inr rfl, (hmet "1" (.inr rfl)).2 (by simpa using hall)⟩, ?_⟩
    rintro g ⟨hg, hbounds⟩
    exact ((hmet g hg).1 hbounds).2 hall
  · refine ⟨"0", ⟨.inl rfl, (hmet "0" (.inl rfl)).2 (by simpa using hall)⟩, ?_⟩
    rintro g ⟨hg, hbounds⟩
    have hne : g ≠ "1" := fun hone => hall (((hmet g hg).1 hbounds).1 hone)
    exact hg.resolve_right hne

/-- **Gates reify conjunctions.** A gate over predicates about variables of the instance adds a
fresh variable and two hard constraints.  They are met exactly where the variable is `1` if all
predicates hold and `0` otherwise, so every assignment of the old variables has exactly one
extension. -/
theorem andGate_reifies {terms : List Term} {offset : Int} {i j : Instance} {s t : Scribe}
    {name : String} (hne : terms ≠ []) (hsigned : ∀ t ∈ terms, t.Signed)
    (hknown : ∀ t ∈ terms, t.var ∈ i.vars.map (·.name)) (hoffset : offset = negatedTerms terms)
    (hi : i.Entered) (h : Scribe.andGate terms offset (s, i) = .ok name (t, j)) :
    ∃ upper lower : Con, name ∉ i.vars.map (·.name) ∧
      j.vars = i.vars ++ [⟨name, ["0", "1"]⟩] ∧ j.constraints = i.constraints ++ [upper, lower] ∧
      upper.weight = .hard ∧ lower.weight = .hard ∧
      (∀ label : String → String, GateLabel (label name) →
        (upper.demand.Met label ∧ lower.demand.Met label ↔
          (label name = "1" ↔ ∀ t ∈ terms, t.Met label))) ∧
      ∀ label : String → String, ∃! g, GateLabel g ∧
        upper.demand.Met (Function.update label name g) ∧
        lower.demand.Met (Function.update label name g) := by
  subst hoffset
  obtain ⟨id, i₁, i₂, rfl, rfl, hvar, hupper, hlower⟩ := andGate_eq_ok h
  obtain ⟨hfresh, rfl⟩ := hi.indexed.addVar_eq_ok_iff.1 hvar
  obtain ⟨-, -, rfl⟩ := addCon_eq_ok hupper
  obtain ⟨-, -, rfl⟩ := addCon_eq_ok hlower
  refine ⟨_, _, hfresh, rfl, List.append_assoc _ _ _, rfl, rfl, fun label hgate => ?_,
    fun label => ?_⟩
  · exact met_gate_iff hne hsigned hgate
  · apply existsUnique_gate hne hsigned
    intro t ht hvar
    exact hfresh (hvar ▸ hknown t ht)

/-- Two truth values. -/
def pair : Instance := .ofLists [⟨"x", ["0", "1"]⟩, ⟨"y", ["0", "1"]⟩] []

theorem entered_pair : pair.Entered :=
  .addVar (x := ⟨"y", ["0", "1"]⟩) (.addVar (x := ⟨"x", ["0", "1"]⟩) .empty rfl) rfl

/-- The gate of a predicate and a negated one. -/
theorem andGate_reifies_mixed : ∃ t j,
    Scribe.andGate [⟨1, "x", "1"⟩, ⟨-1, "y", "1"⟩] 1 (.start, pair) = .ok "temp0000" (t, j) ∧
      ∃ upper lower : Con, j.constraints = [upper, lower] ∧
        ∀ label : String → String, GateLabel (label "temp0000") →
          (upper.demand.Met label ∧ lower.demand.Met label ↔
            (label "temp0000" = "1" ↔ label "x" = "1" ∧ label "y" ≠ "1")) := by
  have hrun : ∃ t j, Scribe.andGate [⟨1, "x", "1"⟩, ⟨-1, "y", "1"⟩] 1 (.start, pair) =
      .ok "temp0000" (t, j) := ⟨_, _, rfl⟩
  obtain ⟨t, j, hrun⟩ := hrun
  obtain ⟨upper, lower, -, -, hcons, -, -, hmet, -⟩ :=
    andGate_reifies (by simp) (by simp [Term.Signed]) (by decide) (by simp [negatedTerms])
      entered_pair hrun
  refine ⟨t, j, hrun, upper, lower, hcons, fun label hgate => ?_⟩
  rw [hmet label hgate]
  simp [Term.Met]

/-! ### Gates that are refused -/

theorem put_eq_error {x : Entering Unit} {i j : Instance} {s t : Scribe} {f : Failure ScribeError}
    (h : Scribe.put x (s, i) = .error f (t, j)) :
    ∃ e, x i = .error e j ∧ f = e.map .refused := by
  unfold Scribe.put at h
  dsimp only at h
  split at h
  · cases h
  · next e i' heq =>
    cases h
    exact ⟨e, heq, rfl⟩

/-- The instance with the variable of a gate. -/
def withGate (i : Instance) (id : String) : Instance := i.withVar ⟨"temp" ++ id, ["0", "1"]⟩

/-- The instance with the variable of a gate and its upper bound. -/
def withUpper (i : Instance) (id : String) (terms : List Term) (offset : Int) : Instance :=
  (i.withGate id).withCon ⟨"AND_UB_" ++ id, .hard, upperBound ("temp" ++ id) terms offset⟩

/-- What is in an instance after a gate was refused, and why it was. -/
inductive Remains (i : Instance) (id : String) (terms : List Term) (offset : Int) :
    InstanceError → Instance → Prop
  /-- The name of the gate is taken, and nothing was entered. -/
  | gateTaken (htaken : "temp" ++ id ∈ i.vars.map (·.name)) :
    Remains i id terms offset (.duplicateVariable ("temp" ++ id)) i
  /-- The name of the upper bound is taken; the variable was entered. -/
  | upperTaken (hfresh : "temp" ++ id ∉ i.vars.map (·.name))
    (htaken : "AND_UB_" ++ id ∈ i.constraints.map (·.name)) :
    Remains i id terms offset (.duplicateConstraint ("AND_UB_" ++ id)) (i.withGate id)
  /-- A predicate speaks of a variable that is not there; that of the gate was entered. -/
  | unknown {x : String} (hfresh : "temp" ++ id ∉ i.vars.map (·.name))
    (hx : x ∈ terms.map (·.var)) (hunknown : x ∉ i.vars.map (·.name)) :
    Remains i id terms offset (.undeclaredVariable ("AND_UB_" ++ id) x) (i.withGate id)
  /-- The name of the lower bound is taken; the variable and the upper bound were entered. -/
  | lowerTaken (hfresh : "temp" ++ id ∉ i.vars.map (·.name))
    (htaken : "AND_LB_" ++ id ∈ i.constraints.map (·.name)) :
    Remains i id terms offset (.duplicateConstraint ("AND_LB_" ++ id))
      (i.withUpper id terms offset)

section Remains

variable {i j : Instance} {id : String} {terms : List Term} {offset : Int} {e : InstanceError}

theorem withGate_ne (i : Instance) (id : String) : (i.withGate id).vars ≠ i.vars := by
  intro h
  have hlength := congrArg List.length h
  simp [withGate, withVar] at hlength

/-- Nothing has changed exactly if the name of the gate is taken. -/
theorem Remains.eq_iff (h : Remains i id terms offset e j) :
    j = i ↔ "temp" ++ id ∈ i.vars.map (·.name) := by
  have hgate : ∀ k : Instance, k.vars = (i.withGate id).vars →
      "temp" ++ id ∉ i.vars.map (·.name) → (k = i ↔ "temp" ++ id ∈ i.vars.map (·.name)) := by
    intro k hk hfresh
    refine iff_of_false (fun heq => withGate_ne i id ?_) hfresh
    rw [← hk, heq]
  cases h with
  | gateTaken htaken => exact iff_of_true rfl htaken
  | upperTaken hfresh _ | unknown hfresh _ _ | lowerTaken hfresh _ => exact hgate _ rfl hfresh

/-- Old entries stay, in front of the new ones. -/
theorem Remains.isPrefix (h : Remains i id terms offset e j) :
    i.vars <+: j.vars ∧ i.constraints <+: j.constraints := by
  cases h with
  | gateTaken _ => exact ⟨List.prefix_refl _, List.prefix_refl _⟩
  | upperTaken _ _ | unknown _ _ _ => exact ⟨List.prefix_append _ _, List.prefix_refl _⟩
  | lowerTaken _ _ => exact ⟨List.prefix_append _ _, List.prefix_append _ _⟩

/-- The upper bound may be refused, and the variable remains. -/
theorem remains_of_upper (hi : i.Indexed) (hfresh : "temp" ++ id ∉ i.vars.map (·.name))
    {f : Failure InstanceError}
    (h : addCon ⟨"AND_UB_" ++ id, .hard, upperBound ("temp" ++ id) terms offset⟩ (i.withGate id) =
      .error f j) : ∃ e, f = .error e ∧ Remains i id terms offset e j := by
  cases addCon_error_eq h
  rcases (hi.withVar hfresh).addCon_eq_error h with ⟨htaken, rfl⟩ | ⟨x, hx, hunknown, rfl⟩
  · exact ⟨_, rfl, .upperTaken hfresh htaken⟩
  · -- The variable of the gate is known by now, so it is one of a predicate.
    have hnames : (i.withGate id).vars.map (·.name) = i.vars.map (·.name) ++ ["temp" ++ id] := by
      simp [withGate, withVar]
    rw [← withGate, hnames, List.mem_append, List.mem_singleton, not_or] at hunknown
    have hx' : x ∈ terms.map (·.var) ++ ["temp" ++ id] := by
      simpa [Con.varNames, upperBound] using hx
    rw [List.mem_append, List.mem_singleton] at hx'
    exact ⟨_, rfl, .unknown hfresh (hx'.resolve_right hunknown.2) hunknown.1⟩

/-- The lower bound may be refused, and the variable and the upper bound remain. -/
theorem remains_of_lower (hi : i.Indexed) (hfresh : "temp" ++ id ∉ i.vars.map (·.name))
    (hupper : addCon ⟨"AND_UB_" ++ id, .hard, upperBound ("temp" ++ id) terms offset⟩
      (i.withGate id) = .ok () (i.withUpper id terms offset)) {f : Failure InstanceError}
    (h : addCon ⟨"AND_LB_" ++ id, .hard, lowerBound ("temp" ++ id) terms offset⟩
      (i.withUpper id terms offset) = .error f j) :
    ∃ e, f = .error e ∧ Remains i id terms offset e j := by
  have hgate : (i.withGate id).Indexed := hi.withVar hfresh
  obtain ⟨hupperFresh, hknown, -⟩ := hgate.addCon_eq_ok_iff.1 hupper
  cases addCon_error_eq h
  rcases (hgate.withCon hupperFresh).addCon_eq_error h with ⟨htaken, rfl⟩ | ⟨x, hx, hunknown, rfl⟩
  · have hne : "AND_LB_" ++ id ≠ "AND_UB_" ++ id := by
      intro heq
      have hlist := congrArg String.toList heq
      simp at hlist
    have hnames : (i.withUpper id terms offset).constraints.map (·.name) =
        i.constraints.map (·.name) ++ ["AND_UB_" ++ id] := by
      simp [withUpper, withCon, withGate, withVar]
    rw [← withUpper, hnames, List.mem_append, List.mem_singleton] at htaken
    exact ⟨_, rfl, .lowerTaken hfresh (htaken.resolve_right hne)⟩
  · -- Both bounds speak of the same variables, and the upper one was entered.
    have hsame : x ∈ (⟨"AND_UB_" ++ id, .hard, upperBound ("temp" ++ id) terms offset⟩ :
        Con).varNames := by
      simpa [Con.varNames, upperBound, lowerBound] using hx
    exact absurd (hknown x hsame) hunknown

/-- **Gates that are refused** leave behind what was entered before the refusal: nothing if the name
of the gate is taken, and otherwise its variable, in the last case with its upper bound. -/
theorem andGate_refused {s t : Scribe} {f : ScribeError} (hi : i.Entered)
    (h : Scribe.andGate terms offset (s, i) = .error (.error f) (t, j)) :
    (∃ e, f = .refused e ∧ Remains i (Decimal.padded 4 s.gates) terms offset e j) ∧
      (j = i ↔ "temp" ++ Decimal.padded 4 s.gates ∈ i.vars.map (·.name)) ∧
      i.vars <+: j.vars ∧ i.constraints <+: j.constraints := by
  have hremains : ∃ e, f = .refused e ∧
      Remains i (Decimal.padded 4 s.gates) terms offset e j := by
    rcases Step.bind_eq_error.1 h with hgate | ⟨number, ⟨s₁, i₁⟩, hgate, h₁⟩
    · cases hgate
    cases hgate
    rcases Step.bind_eq_error.1 h₁ with hvar | ⟨_, ⟨s₂, i₂⟩, hvar, h₂⟩
    · obtain ⟨e, hadd, hf⟩ := put_eq_error hvar
      cases addVar_error_eq hadd
      obtain ⟨htaken, rfl⟩ := hi.indexed.addVar_eq_error hadd
      cases hf
      exact ⟨_, rfl, .gateTaken htaken⟩
    obtain ⟨hfresh, rfl⟩ := hi.indexed.addVar_eq_ok_iff.1 (put_eq_ok hvar).1
    -- The bounds are computed in machine arithmetic, whose failures are faults.
    rcases Step.bind_eq_error.1 h₂ with hfault | ⟨upper, q, hupper, h₃⟩
    · obtain ⟨⟨_, _, ⟨⟩⟩, -⟩ := Step.checked_eq_error.1 hfault
    obtain ⟨hsub, rfl⟩ := Step.checked_eq_ok.1 hupper
    obtain ⟨first, hfirst, hsecond⟩ := Checked.bind_eq_ok.1 hsub
    obtain ⟨-, rfl⟩ := Word.fit_eq_ok_iff.1 hfirst
    obtain ⟨-, rfl⟩ := Word.fit_eq_ok_iff.1 hsecond
    rcases Step.bind_eq_error.1 h₃ with hcon | ⟨_, ⟨s₃, i₃⟩, hcon, h₄⟩
    · obtain ⟨g, hadd, hf⟩ := put_eq_error hcon
      obtain ⟨e, rfl, hremains⟩ := remains_of_upper hi.indexed hfresh hadd
      cases hf
      exact ⟨e, rfl, hremains⟩
    have hupper := (put_eq_ok hcon).1
    obtain ⟨-, -, rfl⟩ := addCon_eq_ok hupper
    rcases Step.bind_eq_error.1 h₄ with hfault | ⟨lower, q, hlower, h₅⟩
    · obtain ⟨⟨_, _, ⟨⟩⟩, -⟩ := Step.checked_eq_error.1 hfault
    obtain ⟨hsub, rfl⟩ := Step.checked_eq_ok.1 hlower
    obtain ⟨-, rfl⟩ := Word.fit_eq_ok_iff.1 hsub
    rcases Step.bind_eq_error.1 h₅ with hcon | ⟨_, q, -, h₆⟩
    · obtain ⟨g, hadd, hf⟩ := put_eq_error hcon
      obtain ⟨e, rfl, hremains⟩ := remains_of_lower hi.indexed hfresh hupper hadd
      cases hf
      exact ⟨e, rfl, hremains⟩
    · cases h₆
  obtain ⟨e, hf, hj⟩ := hremains
  exact ⟨⟨e, hf, hj⟩, hj.eq_iff, hj.isPrefix⟩

end Remains

/-- A gate over an unknown variable. -/
theorem andGate_refused_unknown : ∃ t j,
    Scribe.andGate [⟨1, "nope", "1"⟩] 0 (.start, pair) =
        .error (.error (.refused (.undeclaredVariable "AND_UB_0000" "nope"))) (t, j) ∧
      ¬ j = pair ∧ pair.vars <+: j.vars := by
  have hrun : ∃ t j, Scribe.andGate [⟨1, "nope", "1"⟩] 0 (.start, pair) =
      .error (.error (.refused (.undeclaredVariable "AND_UB_0000" "nope"))) (t, j) := ⟨_, _, rfl⟩
  obtain ⟨t, j, hrun⟩ := hrun
  obtain ⟨-, hiff, hvars, -⟩ := andGate_refused entered_pair hrun
  refine ⟨t, j, hrun, fun heq => ?_, hvars⟩
  have htaken := hiff.1 heq
  revert htaken
  decide

/-- Not every gate that is refused leaves the instance as it was. -/
theorem andGate_leaves_variable :
    ¬ ∀ (terms : List Term) (offset : Int) (s t : Scribe) (i j : Instance) (f : ScribeError),
      Scribe.andGate terms offset (s, i) = .error (.error f) (t, j) →
        j.vars = i.vars ∧ j.constraints = i.constraints := by
  intro h
  have hsame := h [⟨1, "nope", "1"⟩] 0 .start _ pair _ _ rfl
  have hlength := congrArg List.length hsame.1
  revert hlength
  decide

end WeightedCsp.Instance

import Mathlib.Tactic.Linarith
import WeightedCsp.Literal
import WeightedCsp.Proofs.Step

/-!
# Growing sets of clauses

An encoder appends clauses over the variables handed out so far and never takes one back.  Its
meaning is a pair of facts about the clauses of one run, `Encodes`: what every model of them obeys,
and which valuations of the old variables extend to a model.  The extension changes fresh variables
only, so runs compose: what was satisfied before stays satisfied.

Literals keep the low 31 bits of a variable's number.  All statements are therefore about runs
that end below `Lit.varLimit`, where a fresh literal is what its name says.
-/

namespace WeightedCsp

/-- A variable of which the number fits is the variable of its literal. -/
theorem Lit.ofVar_of_lt {x : Nat} (h : x < varLimit) (neg : Bool) : ofVar x neg = ⟨x, neg⟩ := by
  rw [ofVar, Nat.mod_eq_of_lt h]

/-! ### Valuations that differ above a bound -/

namespace Valuation

/-- The valuations give the same value to every variable below `n`. -/
def AgreesBelow (n : Nat) (v w : Valuation) : Prop := ∀ x < n, w x = v x

theorem AgreesBelow.refl (n : Nat) (v : Valuation) : v.AgreesBelow n v := fun _ _ => rfl

/-- Agreement on more variables is agreement on fewer. -/
theorem AgreesBelow.mono {m n : Nat} {v w : Valuation} (h : AgreesBelow n v w) (hmn : m ≤ n) :
    AgreesBelow m v w :=
  fun x hx => h x (Nat.lt_of_lt_of_le hx hmn)

/-- Agreement one after the other is agreement on what both share. -/
theorem AgreesBelow.trans {m n : Nat} {u v w : Valuation} (huv : AgreesBelow m u v)
    (hvw : AgreesBelow n v w) (hmn : m ≤ n) : AgreesBelow m u w :=
  fun x hx => (hvw x (Nat.lt_of_lt_of_le hx hmn)).trans (huv x hx)

/-- Valuations that agree on a variable agree on its literals. -/
theorem AgreesBelow.lit_eq {n : Nat} {v w : Valuation} (h : AgreesBelow n v w) {l : Lit}
    (hl : l.var < n) : w.lit l = v.lit l := by
  simp only [lit, h l.var hl]

/-- A clause is true if one of its literals is. -/
theorem clause_eq_true_iff {v : Valuation} {c : Clause} :
    v.clause c = true ↔ ∃ l ∈ c, v.lit l = true := by
  simp [clause]

@[simp]
theorem satisfies_nil (v : Valuation) : v.Satisfies [] := by
  simp [Satisfies]

@[simp]
theorem satisfies_cons {v : Valuation} {c : Clause} {cs : List Clause} :
    v.Satisfies (c :: cs) ↔ v.clause c = true ∧ v.Satisfies cs := by
  simp [Satisfies]

@[simp]
theorem satisfies_append {v : Valuation} {cs ds : List Clause} :
    v.Satisfies (cs ++ ds) ↔ v.Satisfies cs ∧ v.Satisfies ds := by
  simp only [Satisfies, List.mem_append]
  constructor
  · intro h
    exact ⟨fun c hc => h c (.inl hc), fun c hc => h c (.inr hc)⟩
  · rintro ⟨hcs, hds⟩ c (hc | hc)
    · exact hcs c hc
    · exact hds c hc

/-- Units are true if their literals are. -/
theorem satisfies_units {v : Valuation} {units : List Lit} :
    v.Satisfies (units.map fun l => [l]) ↔ ∀ l ∈ units, v.lit l = true := by
  simp [Satisfies, clause]

/-- The valuation with another value of one variable. -/
def update (v : Valuation) (x : Nat) (b : Bool) : Valuation := fun y => if y = x then b else v y

@[simp]
theorem update_same (v : Valuation) (x : Nat) (b : Bool) : v.update x b x = b := by
  simp [update]

/-- Giving a variable another value changes nothing below it. -/
theorem agreesBelow_update (v : Valuation) (x : Nat) (b : Bool) :
    v.AgreesBelow x (v.update x b) := by
  intro y hy
  simp [update, Nat.ne_of_lt hy]

end Valuation

/-- Every variable of the clauses is below `n`. -/
def ClausesBelow (n : Nat) (cs : List Clause) : Prop := ∀ c ∈ cs, ∀ l ∈ c, l.var < n

theorem ClausesBelow.mono {m n : Nat} {cs : List Clause} (h : ClausesBelow m cs) (hmn : m ≤ n) :
    ClausesBelow n cs :=
  fun c hc l hl => Nat.lt_of_lt_of_le (h c hc l hl) hmn

theorem ClausesBelow.append {n : Nat} {cs ds : List Clause} (hcs : ClausesBelow n cs)
    (hds : ClausesBelow n ds) : ClausesBelow n (cs ++ ds) := by
  intro c hc
  rcases List.mem_append.1 hc with h | h
  · exact hcs c h
  · exact hds c h

/-- Clauses stay true when other variables are changed. -/
theorem ClausesBelow.satisfies {n : Nat} {cs : List Clause} (hcs : ClausesBelow n cs)
    {v w : Valuation} (hvw : v.AgreesBelow n w) (hv : v.Satisfies cs) : w.Satisfies cs := by
  intro c hc
  obtain ⟨l, hl, ht⟩ := Valuation.clause_eq_true_iff.1 (hv c hc)
  refine Valuation.clause_eq_true_iff.2 ⟨l, hl, ?_⟩
  rw [hvw.lit_eq (hcs c hc l hl), ht]

/-- The truth of a statement about valuations hangs on the variables below `n` alone. -/
def StableBelow (n : Nat) (p : Valuation → Prop) : Prop :=
  ∀ v w : Valuation, v.AgreesBelow n w → p v → p w

/-- Two stable statements are stable together. -/
theorem StableBelow.and {n : Nat} {p q : Valuation → Prop} (hp : StableBelow n p)
    (hq : StableBelow n q) : StableBelow n fun v => p v ∧ q v :=
  fun v w hvw h => ⟨hp v w hvw h.1, hq v w hvw h.2⟩

/-- What hangs on fewer variables hangs on more. -/
theorem StableBelow.mono {m n : Nat} {p : Valuation → Prop} (hp : StableBelow m p)
    (hmn : m ≤ n) : StableBelow n p :=
  fun v w hvw h => hp v w (hvw.mono hmn) h

/-! ### Growth -/

/-- Variables were handed out and clauses appended. -/
structure Cnf.Grows (s t : Cnf) : Prop where
  next_le : s.next ≤ t.next
  clauses : s.clauses.toList <+: t.clauses.toList

namespace Cnf.Grows

theorem refl (s : Cnf) : Grows s s := ⟨Nat.le_refl _, List.prefix_refl _⟩

/-- Clauses that grow twice grow. -/
theorem trans {s t u : Cnf} (hst : Grows s t) (htu : Grows t u) : Grows s u :=
  ⟨hst.next_le.trans htu.next_le, hst.clauses.trans htu.clauses⟩

end Cnf.Grows

/-- The state after each of the literals is demanded by a clause of its own. -/
def Cnf.withUnits (s : Cnf) (units : List Lit) : Cnf :=
  { s with clauses := s.clauses ++ (units.map fun l => [l]).toArray }

namespace Encoder

variable {ε α β : Type}

/-- Every run of the encoder grows the clauses. -/
abbrev Growing (x : Encoder ε α) : Prop := x.Follows Cnf.Grows

theorem growing_of_after_eq {x : Encoder ε α} (h : ∀ s, x.after s = s) : Growing x :=
  Step.follows_of_after_eq Cnf.Grows.refl h

/-- Sequencing: clauses that grow twice grow. -/
theorem Growing.bind {x : Encoder ε α} {f : α → Encoder ε β} (hx : Growing x)
    (hf : ∀ a, Growing (f a)) : Growing (x >>= f) :=
  Step.Follows.bind Cnf.Grows.trans hx hf

theorem growing_pure (a : α) : Growing (pure a : Encoder ε α) :=
  growing_of_after_eq (Step.after_pure a)

theorem growing_checked (c : Checked α) : Growing (liftM c : Encoder ε α) :=
  growing_of_after_eq (Step.after_checked c)

theorem growing_except (c : Except (Failure ε) α) : Growing (liftM c : Encoder ε α) :=
  growing_of_after_eq (Step.after_except c)

/-- A fresh literal takes nothing back. -/
theorem growing_newLit : Growing (newLit : Encoder ε Lit) := by
  refine Growing.bind (fun s => ?_) fun a => growing_pure _
  unfold Step.after newVar
  by_cases h : s.next + 1 < poolLimit
  · simp only [h, ↓reduceIte]
    exact ⟨Nat.le_succ _, List.prefix_refl _⟩
  · simp only [h, ↓reduceIte]
    exact Cnf.Grows.refl s

theorem growing_newLits : ∀ n : Nat, Growing (newLits n : Encoder ε (List Lit))
  | 0 => growing_pure _
  | n + 1 => growing_newLit.bind fun _ => (growing_newLits n).bind fun _ => growing_pure _

/-- Adding a clause takes nothing back. -/
theorem growing_addClause (c : Clause) : Growing (addClause c : Encoder ε Unit) := by
  intro s
  refine ⟨Nat.le_refl _, ?_⟩
  show s.clauses.toList <+: (s.clauses.push c).toList
  rw [Array.toList_push]
  exact List.prefix_append _ _

theorem growing_addClauses : ∀ cs : List Clause, Growing (addClauses cs : Encoder ε Unit)
  | [] => growing_pure _
  | c :: cs => (growing_addClause c).bind fun _ => growing_addClauses cs

/-! ### The runs of the primitive encoders -/

/-- Where there is room, a fresh literal is the next variable. -/
theorem newLit_eq_ok {s t : Cnf} {l : Lit} (h : (newLit : Encoder ε Lit) s = .ok l t)
    (hroom : t.next ≤ Lit.varLimit) :
    l = ⟨s.next, false⟩ ∧ t = { s with next := s.next + 1 } := by
  obtain ⟨x, u, hx, hl⟩ := Step.bind_eq_ok.1 h
  obtain ⟨rfl, rfl⟩ := Step.pure_eq_ok.1 hl
  unfold newVar at hx
  split at hx
  · cases hx
    have hlt : s.next < Lit.varLimit := hroom
    exact ⟨Lit.ofVar_of_lt hlt false, rfl⟩
  · cases hx

/-- While there is room, a new literal is a variable in use. -/
theorem newLit_below {s t : Cnf} {l : Lit} (h : (newLit : Encoder ε Lit) s = .ok l t)
    (hroom : t.next ≤ Lit.varLimit) : l.var < t.next := by
  obtain ⟨rfl, rfl⟩ := newLit_eq_ok h hroom
  exact Nat.lt_succ_self _

/-- Adding clauses gives the clauses at the end, and does nothing else. -/
theorem addClauses_eq_ok {cs : List Clause} {s t : Cnf} {u : Unit} :
    (addClauses cs : Encoder ε Unit) s = .ok u t ↔
      t = { s with clauses := s.clauses ++ cs.toArray } := by
  induction cs generalizing s with
  | nil => simp [addClauses, eq_comm]
  | cons c cs ih =>
    unfold addClauses
    rw [Step.bind_eq_ok]
    constructor
    · rintro ⟨a, s', ⟨⟩, hs⟩
      rw [ih.1 hs]
      simp
    · rintro rfl
      refine ⟨(), _, rfl, ih.2 ?_⟩
      simp

end Encoder

/-! ### What the clauses of a run mean -/

/-- The clauses made between two states force a statement on each of their models, and every
valuation that is `wanted` becomes a model in which a statement is `given`, if only its fresh
variables are set right. -/
structure Encodes (s t : Cnf) (forced wanted given : Valuation → Prop) : Prop where
  /-- Nothing is taken back. -/
  grows : s.Grows t
  /-- What the clauses mean. -/
  meaning : ∃ new, t.clauses.toList = s.clauses.toList ++ new ∧ ClausesBelow t.next new ∧
    (∀ v : Valuation, v.Satisfies new → forced v) ∧
    ∀ v : Valuation, wanted v → ∃ w, v.AgreesBelow s.next w ∧ w.Satisfies new ∧ given w

namespace Encodes

variable {s t u : Cnf} {p q r p' q' r' : Valuation → Prop}

/-- A run without clauses. -/
theorem refl (s : Cnf) (hp : ∀ v, p v) (hr : ∀ v, q v → r v) : Encodes s s p q r :=
  ⟨Cnf.Grows.refl s, [], by simp, by simp [ClausesBelow], fun v _ => hp v,
    fun v hv => ⟨v, .refl _ v, Valuation.satisfies_nil v, hr v hv⟩⟩

/-- The statements can be weakened, and the wish made stronger. -/
theorem mono (h : Encodes s t p q r) (hp : ∀ v, p v → p' v) (hq : ∀ v, q' v → q v)
    (hr : ∀ v, r v → r' v) : Encodes s t p' q' r' := by
  obtain ⟨hg, new, hnew, hbelow, hforced, hgiven⟩ := h
  refine ⟨hg, new, hnew, hbelow, fun v hv => hp v (hforced v hv), fun v hv => ?_⟩
  obtain ⟨w, hvw, hw, hrw⟩ := hgiven v (hq v hv)
  exact ⟨w, hvw, hw, hr w hrw⟩

/-- Setting fresh variables keeps what hangs on old ones. -/
theorem frame (h : Encodes s t p q r) {f : Valuation → Prop} (hf : StableBelow s.next f) :
    Encodes s t p (fun v => q v ∧ f v) fun v => r v ∧ f v := by
  obtain ⟨hg, new, hnew, hbelow, hforced, hgiven⟩ := h
  refine ⟨hg, new, hnew, hbelow, hforced, fun v hv => ?_⟩
  obtain ⟨w, hvw, hw, hrw⟩ := hgiven v hv.1
  exact ⟨w, hvw, hw, hrw, hf v w hvw hv.2⟩

/-- A run after another one.  What the first run gives is there when the second one starts, and
stays, because it hangs on variables that are no longer fresh. -/
theorem trans (h₁ : Encodes s t p q r) (h₂ : Encodes t u p' q' r') (hq : ∀ v, r v → q' v)
    (hr : StableBelow t.next r) :
    Encodes s u (fun v => p v ∧ p' v) q fun v => r v ∧ r' v := by
  obtain ⟨hg₁, new₁, hnew₁, hbelow₁, hforced₁, hgiven₁⟩ := h₁
  obtain ⟨hg₂, new₂, hnew₂, hbelow₂, hforced₂, hgiven₂⟩ := h₂
  refine ⟨hg₁.trans hg₂, new₁ ++ new₂, by rw [hnew₂, hnew₁, List.append_assoc],
    (hbelow₁.mono hg₂.next_le).append hbelow₂, fun v hv => ?_, fun v hv => ?_⟩
  · rw [Valuation.satisfies_append] at hv
    exact ⟨hforced₁ v hv.1, hforced₂ v hv.2⟩
  · obtain ⟨v', hvv', hv', hrv'⟩ := hgiven₁ v hv
    obtain ⟨w, hv'w, hw, hrw⟩ := hgiven₂ v' (hq v' hrv')
    refine ⟨w, hvv'.trans hv'w hg₁.next_le, ?_, hr v' w hv'w hrv', hrw⟩
    exact Valuation.satisfies_append.2 ⟨hbelow₁.satisfies hv'w hv', hw⟩

/-- Clauses over old variables, appended as they are. -/
theorem addClauses {ε : Type} {cs : List Clause} {x : Unit}
    (h : (Encoder.addClauses cs : Encoder ε Unit) s = .ok x t) (hcs : ClausesBelow s.next cs) :
    Encodes s t (·.Satisfies cs) (·.Satisfies cs) fun _ => True := by
  have hg : s.Grows t := (Encoder.growing_addClauses cs).ok h
  rw [Encoder.addClauses_eq_ok] at h
  subst h
  refine ⟨hg, cs, by simp, hcs, fun v hv => hv, fun v hv => ⟨v, .refl _ v, hv, trivial⟩⟩

/-- A run that gives literals, which are demanded then. -/
theorem withUnits {units : List Lit} (h : Encodes s t p q fun v => ∀ l ∈ units, v.lit l = true)
    (hunits : ∀ l ∈ units, l.var < t.next) :
    Encodes s (t.withUnits units) (fun v => p v ∧ ∀ l ∈ units, v.lit l = true) q
      fun _ => True := by
  have hclauses : ClausesBelow t.next (units.map fun l => [l]) := by
    simpa [ClausesBelow] using hunits
  have hadd := addClauses (ε := Unit) (x := ()) (Encoder.addClauses_eq_ok.2 rfl) hclauses
  refine (h.trans hadd (fun v hv => Valuation.satisfies_units.2 hv) ?_).mono ?_ (fun _ hv => hv)
    fun _ _ => trivial
  · intro v w hvw hv l hl
    rw [hvw.lit_eq (hunits l hl)]
    exact hv l hl
  · rintro v ⟨hv, hsat⟩
    exact ⟨hv, Valuation.satisfies_units.1 hsat⟩

/-- One clause over old variables. -/
theorem addClause {ε : Type} {c : Clause} {x : Unit}
    (h : (Encoder.addClause c : Encoder ε Unit) s = .ok x t) (hc : ∀ l ∈ c, l.var < s.next) :
    Encodes s t (·.clause c = true) (·.clause c = true) fun _ => True := by
  cases h
  refine ⟨(Encoder.growing_addClause (ε := ε) c).ok rfl, [c], by simp, ?_, fun v hv => ?_,
    fun v hv => ⟨v, .refl _ v, ?_, trivial⟩⟩
  · intro d hd
    rw [List.mem_singleton.1 hd]
    exact hc
  · exact (Valuation.satisfies_cons.1 hv).1
  · exact Valuation.satisfies_cons.2 ⟨hv, Valuation.satisfies_nil v⟩

/-- A fresh literal can be given any truth value that hangs on old variables. -/
theorem newLit {ε : Type} {l : Lit} (h : (Encoder.newLit : Encoder ε Lit) s = .ok l t)
    (hroom : t.next ≤ Lit.varLimit) (hp : StableBelow s.next p) (truth : Valuation → Bool)
    (htruth : ∀ v w : Valuation, v.AgreesBelow s.next w → truth w = truth v) :
    Encodes s t (fun _ => True) p fun w => p w ∧ w.lit l = truth w := by
  have hg : s.Grows t := Encoder.growing_newLit.ok h
  obtain ⟨rfl, rfl⟩ := Encoder.newLit_eq_ok h hroom
  refine ⟨hg, [], by simp, by simp [ClausesBelow], fun _ _ => trivial, fun v hv => ?_⟩
  have hvw := v.agreesBelow_update s.next (truth v)
  refine ⟨v.update s.next (truth v), hvw, Valuation.satisfies_nil _, hp v _ hvw hv, ?_⟩
  rw [htruth v _ hvw]
  simp [Valuation.lit]

/-- Where there were no clauses, all clauses are the new ones. -/
theorem of_empty (h : Encodes s t p q r) (hs : s.clauses = #[]) :
    ClausesBelow t.next t.clauses.toList ∧
      (∀ v : Valuation, v.Satisfies t.clauses.toList → p v) ∧
      ∀ v : Valuation, q v →
        ∃ w, v.AgreesBelow s.next w ∧ w.Satisfies t.clauses.toList ∧ r w := by
  obtain ⟨-, new, hnew, hmeaning⟩ := h
  rw [hs, Array.toList_empty, List.nil_append] at hnew
  rw [hnew]
  exact hmeaning

end Encodes

end WeightedCsp

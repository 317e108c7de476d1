import WeightedCsp.Proofs.Csp.Comparison
import WeightedCsp.Proofs.Csp.Normalizing

/-!
# Compiling formulas

A part of a formula is represented by atoms in one direction: where they are true together (or
where one of them is, for disjuncts), the part is true of the shown values, and where the part is
true, the fresh literals can be set so that the atoms are.  This is enough, because atoms occur
without negation.  The four functions for parts are proved together, by induction over the normal
form (`disjuncts_standFor`, `conjuncts_standFor`); at the top, what is compiled is demanded
(`compile_compiles`).
-/

namespace WeightedCsp

namespace Compiler

variable {t u : Tables}

/-! ### Names for parts -/

theorem growing_nameAll (atoms : List Atom) : Growing (nameAll atoms) := by
  unfold nameAll
  split_ifs
  · exact growing_pure _
  · split
    · exact growing_pure _
    · exact growing_pure _
    · exact (growing_emit Encoder.growing_newLit).bind fun _ =>
        (growing_clauses _).bind fun _ => growing_pure _

theorem growing_nameAny (atoms : List Atom) : Growing (nameAny atoms) := by
  unfold nameAny
  split_ifs
  · exact growing_pure _
  · split
    · exact growing_pure _
    · exact growing_pure _
    · exact (growing_emit Encoder.growing_newLit).bind fun _ =>
        (growing_clause _).bind fun _ => growing_pure _

open Classical in
/-- A fresh literal can be given the truth of any statement about variables in use. -/
theorem newLit_compiles {l : Lit} (h : emit Encoder.newLit t = .ok l u) (ht : t.WellFormed)
    (hroom : u.cnf.next ≤ Lit.varLimit) {truth : Valuation → Prop}
    (htruth : StableBelow t.cnf.next truth) (value : String → Int) :
    Compiles value t u (fun _ => True) (fun _ => True) fun w => w.lit l ↔ truth w := by
  obtain ⟨cnf, hnew, rfl⟩ := emit_eq_ok h
  have hsame : ∀ v w : Valuation, v.AgreesBelow t.cnf.next w →
      decide (truth w) = decide (truth v) := by
    intro v w hvw
    refine decide_eq_decide.2 ⟨htruth w v fun x hx => (hvw x hx).symm, htruth v w hvw⟩
  have hencodes := Encodes.newLit hnew hroom (fun _ _ _ h => h : StableBelow _ fun _ => True)
    (fun v => decide (truth v)) hsame
  refine .of_encodes ht (hencodes.mono ?_ ?_ ?_)
  · exact fun _ _ _ => trivial
  · exact fun _ _ => trivial
  · rintro w ⟨-, hw⟩
    rw [hw, decide_eq_true_eq]

/-- A fresh literal is one of the variables in use. -/
theorem newLit_var_lt {l : Lit} (h : emit Encoder.newLit t = .ok l u)
    (hroom : u.cnf.next ≤ Lit.varLimit) : l.var < u.cnf.next := by
  obtain ⟨cnf, hnew, rfl⟩ := emit_eq_ok h
  exact Encoder.newLit_below hnew hroom

/-- **Names.** A fresh literal that is made to imply a statement can be true where the statement
is. -/
theorem name_compiles {l : Lit} {t₁ : Tables} (hnew : emit Encoder.newLit t = .ok l t₁)
    (ht : t.WellFormed) (hroom : t₁.cnf.next ≤ Lit.varLimit) {truth : Valuation → Prop}
    (htruth : StableBelow t.cnf.next truth) {value : String → Int}
    (hdef : Compiles value t₁ u (fun v => v.lit l → truth v) (fun v => v.lit l → truth v)
      fun _ => True) :
    Compiles value t u (fun v => v.lit l → truth v) (fun _ => True) fun w => truth w → w.lit l := by
  have hfresh := newLit_compiles hnew ht hroom htruth value
  have hlt := newLit_var_lt hnew hroom
  have hgrow := hfresh.grows.cnf.next_le
  -- The literal is set to the truth of the statement, which satisfies its definition.
  refine (hfresh.trans hdef (fun v hv => hv.1) ?_).mono ?_ (fun _ _ h => h) ?_
  · intro v w hvw hv
    rw [hvw.lit_eq hlt, hv]
    refine ⟨htruth v w (hvw.mono hgrow), htruth w v fun y hy => ?_⟩
    exact (hvw y (hy.trans_le hgrow)).symm
  · exact fun v _ hv => hv.2
  · exact fun v _ hv htrue => hv.1.2 htrue

/-- A conjunction can do without its true atoms. -/
theorem allEval_filter (atoms : List Atom) {v : Valuation} :
    (∀ a ∈ atoms.filter (· ≠ .true), a.eval v) ↔ ∀ a ∈ atoms, a.eval v := by
  simp only [List.mem_filter, decide_eq_true_eq, and_imp]
  refine forall₂_congr fun a _ => ?_
  by_cases ha : a = .true
  · simp [ha, Atom.eval]
  · simp [ha]

/-- A disjunction can do without its false atoms. -/
theorem someEval_filter (atoms : List Atom) {v : Valuation} :
    (∃ a ∈ atoms.filter (· ≠ .false), a.eval v) ↔ ∃ a ∈ atoms, a.eval v := by
  simp only [List.mem_filter, decide_eq_true_eq, and_assoc]
  refine exists_congr fun a => and_congr_right fun _ => ?_
  by_cases ha : a = .false
  · simp [ha, Atom.eval]
  · simp [ha]

/-- The name of a conjunction implies the atoms, and may be true where they all are. -/
theorem nameAll_compiles {atoms : List Atom} {a : Atom} (h : nameAll atoms t = .ok a u)
    (ht : t.WellFormed) (hroom : u.cnf.next ≤ Lit.varLimit)
    (hin : ∀ b ∈ atoms, b.Below t.cnf.next) :
    a.Below u.cnf.next ∧ ∀ value, Compiles value t u (fun v => a.eval v → ∀ b ∈ atoms, b.eval v)
      (fun _ => True) fun w => (∀ b ∈ atoms, b.eval w) → a.eval w := by
  unfold nameAll at h
  split_ifs at h with hfalse
  · obtain ⟨rfl, rfl⟩ := Step.pure_eq_ok.1 h
    refine ⟨trivial, fun value => .refl ht ?_ ?_⟩
    · exact fun v _ _ hv => absurd hv (by simp [Atom.eval])
    · exact fun v _ _ _ hall => hall _ hfalse
  have hrest : ∀ b ∈ atoms.filter (· ≠ .true), b.Below t.cnf.next :=
    fun b hb => hin b (List.mem_filter.1 hb).1
  simp only [← allEval_filter atoms]
  generalize atoms.filter (· ≠ .true) = rest at h hrest ⊢
  rcases rest with _ | ⟨b, _ | ⟨c, rest⟩⟩
  · obtain ⟨rfl, rfl⟩ := Step.pure_eq_ok.1 h
    refine ⟨trivial, fun value => .refl ht ?_ ?_⟩
    · exact fun _ _ _ _ => by simp
    · exact fun _ _ _ _ _ => rfl
  · obtain ⟨rfl, rfl⟩ := Step.pure_eq_ok.1 h
    refine ⟨hrest b (by simp), fun value => .refl ht ?_ ?_⟩
    · exact fun v _ _ hv => by simpa using hv
    · exact fun v _ _ _ hall => hall b (by simp)
  · obtain ⟨l, t₁, hl, h₁⟩ := Step.bind_eq_ok.1 h
    obtain ⟨x, t₂, hclauses, h₂⟩ := Step.bind_eq_ok.1 h₁
    obtain ⟨rfl, rfl⟩ := Step.pure_eq_ok.1 h₂
    generalize b :: c :: rest = conj at hclauses hrest ⊢
    have hle := ((growing_clauses _).ok hclauses).cnf.next_le
    have hlt := newLit_var_lt hl (hle.trans hroom)
    have hnew := newLit_compiles hl ht (hle.trans hroom) (stable_allEval hrest)
    refine ⟨hlt.trans_le hle, fun value => ?_⟩
    have hdef := clauses_compiles hclauses (hnew value).wellFormed (by
      simp only [List.forall_mem_map, List.forall_mem_cons]
      exact fun d hd => ⟨hlt, (hrest d hd).mono (hnew value).grows.cnf.next_le, by simp⟩) value
    -- One clause for each member says that the name implies all of them.
    have hmeans : ∀ v : Valuation, (∀ d ∈ conj.map fun d => [Atom.lit l.not, d],
        ∃ e ∈ d, e.eval v) ↔ (v.lit l → ∀ d ∈ conj, d.eval v) := by
      intro v
      rw [List.forall_mem_map]
      cases hv : v.lit l <;> simp [Atom.eval, hv]
    refine name_compiles hl ht (hle.trans hroom) (stable_allEval hrest) (hdef.mono ?_ ?_ ?_)
    · exact fun v _ => (hmeans v).1
    · exact fun v _ => (hmeans v).2
    · exact fun _ _ _ => trivial

/-- The name of a disjunction implies that one of the atoms is true, and may be true where one
is. -/
theorem nameAny_compiles {atoms : List Atom} {a : Atom} (h : nameAny atoms t = .ok a u)
    (ht : t.WellFormed) (hroom : u.cnf.next ≤ Lit.varLimit)
    (hin : ∀ b ∈ atoms, b.Below t.cnf.next) :
    a.Below u.cnf.next ∧ ∀ value, Compiles value t u (fun v => a.eval v → ∃ b ∈ atoms, b.eval v)
      (fun _ => True) fun w => (∃ b ∈ atoms, b.eval w) → a.eval w := by
  unfold nameAny at h
  split_ifs at h with htrue
  · obtain ⟨rfl, rfl⟩ := Step.pure_eq_ok.1 h
    refine ⟨trivial, fun value => .refl ht ?_ ?_⟩
    · exact fun v _ _ hv => ⟨_, htrue, hv⟩
    · exact fun v _ _ _ _ => rfl
  have hrest : ∀ b ∈ atoms.filter (· ≠ .false), b.Below t.cnf.next :=
    fun b hb => hin b (List.mem_filter.1 hb).1
  simp only [← someEval_filter atoms]
  generalize atoms.filter (· ≠ .false) = rest at h hrest ⊢
  rcases rest with _ | ⟨b, _ | ⟨c, rest⟩⟩
  · obtain ⟨rfl, rfl⟩ := Step.pure_eq_ok.1 h
    refine ⟨trivial, fun value => .refl ht ?_ ?_⟩
    · exact fun v _ _ hv => absurd hv (by simp [Atom.eval])
    · exact fun v _ _ _ hsome => by simp at hsome
  · obtain ⟨rfl, rfl⟩ := Step.pure_eq_ok.1 h
    refine ⟨hrest b (by simp), fun value => .refl ht ?_ ?_⟩
    · exact fun v _ _ hv => ⟨b, by simp, hv⟩
    · exact fun v _ _ _ hsome => by simpa using hsome
  · obtain ⟨l, t₁, hl, h₁⟩ := Step.bind_eq_ok.1 h
    obtain ⟨x, t₂, hclause, h₂⟩ := Step.bind_eq_ok.1 h₁
    obtain ⟨rfl, rfl⟩ := Step.pure_eq_ok.1 h₂
    generalize b :: c :: rest = disj at hclause hrest ⊢
    have hle := ((growing_clause _).ok hclause).cnf.next_le
    have hlt := newLit_var_lt hl (hle.trans hroom)
    have hnew := newLit_compiles hl ht (hle.trans hroom) (stable_someEval hrest)
    refine ⟨hlt.trans_le hle, fun value => ?_⟩
    have hdef := clause_compiles hclause (hnew value).wellFormed
      (List.forall_mem_cons.2
        ⟨hlt, fun d hd => (hrest d hd).mono (hnew value).grows.cnf.next_le⟩) value
    -- The one clause says that the name implies one of the members.
    have hmeans : ∀ v : Valuation, (∃ d ∈ Atom.lit l.not :: disj, d.eval v) ↔
        (v.lit l → ∃ d ∈ disj, d.eval v) := by
      intro v
      cases hv : v.lit l <;> simp [Atom.eval, hv]
    refine name_compiles hl ht (hle.trans hroom) (stable_someEval hrest) (hdef.mono ?_ ?_ ?_)
    · exact fun v _ => (hmeans v).1
    · exact fun v _ => (hmeans v).2
    · exact fun _ _ _ => trivial

/-! ### Parts of formulas -/

mutual

theorem growing_disjuncts : ∀ f : Nnf, Growing f.disjuncts
  | .compare .. => (growing_comparison _ _ _ _).bind fun _ => growing_pure _
  | .statement _ => (growing_nested _).bind fun _ => growing_pure _
  | .all parts => (growing_allConjuncts parts).bind fun _ => (growing_nameAll _).bind fun _ =>
      growing_pure _
  | .any parts => growing_allDisjuncts parts

theorem growing_allDisjuncts : ∀ fs : List Nnf, Growing (Nnf.allDisjuncts fs)
  | [] => growing_pure _
  | f :: fs => (growing_disjuncts f).bind fun _ => (growing_allDisjuncts fs).bind fun _ =>
      growing_pure _

theorem growing_conjuncts : ∀ f : Nnf, Growing f.conjuncts
  | .compare .. => (growing_comparison _ _ _ _).bind fun _ => growing_pure _
  | .statement _ => (growing_nested _).bind fun _ => growing_pure _
  | .all parts => growing_allConjuncts parts
  | .any parts => (growing_allDisjuncts parts).bind fun _ => (growing_nameAny _).bind fun _ =>
      growing_pure _

theorem growing_allConjuncts : ∀ fs : List Nnf, Growing (Nnf.allConjuncts fs)
  | [] => growing_pure _
  | f :: fs => (growing_conjuncts f).bind fun _ => (growing_allConjuncts fs).bind fun _ =>
      growing_pure _

end

/-- Where one of the atoms is true, so is the part; where the part is true, one of the atoms may
be. -/
structure OneStandsFor (t u : Tables) (atoms : List Atom) (part : (String → Int) → Prop) :
    Prop where
  /-- The atoms are over variables in use. -/
  below : ∀ a ∈ atoms, a.Below u.cnf.next
  /-- The two directions. -/
  compiles : ∀ value, Compiles value t u (fun v => (∃ a ∈ atoms, a.eval v) → part value)
    (fun _ => True) fun w => part value → ∃ a ∈ atoms, a.eval w

/-- Where all the atoms are true, so is the part; where the part is true, all the atoms may be. -/
structure AllStandFor (t u : Tables) (atoms : List Atom) (part : (String → Int) → Prop) :
    Prop where
  /-- The atoms are over variables in use. -/
  below : ∀ a ∈ atoms, a.Below u.cnf.next
  /-- The two directions. -/
  compiles : ∀ value, Compiles value t u (fun v => (∀ a ∈ atoms, a.eval v) → part value)
    (fun _ => True) fun w => part value → ∀ a ∈ atoms, a.eval w

variable {w : Tables} {part part' : (String → Int) → Prop}

/-- The tables in which the atoms of a disjunction stand are well formed. -/
theorem OneStandsFor.wellFormed {atoms : List Atom} (h : OneStandsFor t u atoms part) :
    u.WellFormed := (h.compiles fun _ => 0).wellFormed

/-- The tables in which the atoms of a conjunction stand are well formed. -/
theorem AllStandFor.wellFormed {atoms : List Atom} (h : AllStandFor t u atoms part) :
    u.WellFormed := (h.compiles fun _ => 0).wellFormed

theorem oneStandsFor_nil (ht : t.WellFormed) : OneStandsFor t t [] fun _ => False := by
  refine ⟨by simp, fun value => .refl ht ?_ ?_⟩
  · exact fun v _ _ hv => by simp at hv
  · exact fun v _ _ _ hF => hF.elim

theorem allStandFor_nil (ht : t.WellFormed) : AllStandFor t t [] fun _ => True := by
  refine ⟨by simp, fun value => .refl ht ?_ ?_⟩
  · exact fun _ _ _ _ => trivial
  · exact fun v _ _ _ _ => by simp

/-- The atoms of two disjunctions stand for the disjunction of both. -/
theorem OneStandsFor.append {as bs : List Atom} (h₁ : OneStandsFor t u as part)
    (h₂ : OneStandsFor u w bs part') :
    OneStandsFor t w (as ++ bs) fun value => part value ∨ part' value := by
  have hle := (h₂.compiles fun _ => 0).grows.cnf.next_le
  refine ⟨List.forall_mem_append.2 ⟨fun a ha => (h₁.below a ha).mono hle, h₂.below⟩,
    fun value => ?_⟩
  refine ((h₁.compiles value).trans (h₂.compiles value) (fun _ _ => trivial) ?_).mono ?_
    (fun _ _ h => h) ?_
  · exact fun v v' hvv' hv hpart => stable_someEval h₁.below v v' hvv' (hv hpart)
  · rintro v _ ⟨hv₁, hv₂⟩ ⟨a, ha, heval⟩
    rcases List.mem_append.1 ha with ha | ha
    · exact .inl (hv₁ ⟨a, ha, heval⟩)
    · exact .inr (hv₂ ⟨a, ha, heval⟩)
  · rintro v _ ⟨hv₁, hv₂⟩ (hpart | hpart)
    · obtain ⟨a, ha, heval⟩ := hv₁ hpart
      exact ⟨a, List.mem_append_left _ ha, heval⟩
    · obtain ⟨a, ha, heval⟩ := hv₂ hpart
      exact ⟨a, List.mem_append_right _ ha, heval⟩

/-- The atoms of two conjunctions stand for the conjunction of both. -/
theorem AllStandFor.append {as bs : List Atom} (h₁ : AllStandFor t u as part)
    (h₂ : AllStandFor u w bs part') :
    AllStandFor t w (as ++ bs) fun value => part value ∧ part' value := by
  have hle := (h₂.compiles fun _ => 0).grows.cnf.next_le
  refine ⟨List.forall_mem_append.2 ⟨fun a ha => (h₁.below a ha).mono hle, h₂.below⟩,
    fun value => ?_⟩
  refine ((h₁.compiles value).trans (h₂.compiles value) (fun _ _ => trivial) ?_).mono ?_
    (fun _ _ h => h) ?_
  · exact fun v v' hvv' hv hpart => stable_allEval h₁.below v v' hvv' (hv hpart)
  · rintro v _ ⟨hv₁, hv₂⟩ hall
    obtain ⟨has, hbs⟩ := List.forall_mem_append.1 hall
    exact ⟨hv₁ has, hv₂ hbs⟩
  · rintro v _ ⟨hv₁, hv₂⟩ ⟨hpart, hpart'⟩
    exact List.forall_mem_append.2 ⟨hv₁ hpart, hv₂ hpart'⟩

/-- A conjunction gets a name. -/
theorem AllStandFor.nameAll {atoms : List Atom} {a : Atom} (h : AllStandFor t u atoms part)
    (hname : nameAll atoms u = .ok a w) (hroom : w.cnf.next ≤ Lit.varLimit) :
    OneStandsFor t w [a] part := by
  obtain ⟨hbelow, hcomp⟩ := nameAll_compiles hname h.wellFormed hroom h.below
  refine ⟨by simpa using hbelow, fun value => ?_⟩
  refine ((h.compiles value).trans (hcomp value) (fun _ _ => trivial) ?_).mono ?_
    (fun _ _ h => h) ?_
  · exact fun v v' hvv' hv hpart => stable_allEval h.below v v' hvv' (hv hpart)
  · rintro v _ ⟨hv₁, hv₂⟩ ⟨b, hb, heval⟩
    rw [List.mem_singleton.1 hb] at heval
    exact hv₁ (hv₂ heval)
  · rintro v _ ⟨hv₁, hv₂⟩ hpart
    exact ⟨a, by simp, hv₂ (hv₁ hpart)⟩

/-- A disjunction gets a name. -/
theorem OneStandsFor.nameAny {atoms : List Atom} {a : Atom} (h : OneStandsFor t u atoms part)
    (hname : nameAny atoms u = .ok a w) (hroom : w.cnf.next ≤ Lit.varLimit) :
    AllStandFor t w [a] part := by
  obtain ⟨hbelow, hcomp⟩ := nameAny_compiles hname h.wellFormed hroom h.below
  refine ⟨by simpa using hbelow, fun value => ?_⟩
  refine ((h.compiles value).trans (hcomp value) (fun _ _ => trivial) ?_).mono ?_
    (fun _ _ h => h) ?_
  · exact fun v v' hvv' hv hpart => stable_someEval h.below v v' hvv' (hv hpart)
  · rintro v _ ⟨hv₁, hv₂⟩ hall
    exact hv₁ (hv₂ (hall a (by simp)))
  · rintro v _ ⟨hv₁, hv₂⟩ hpart b hb
    rw [List.mem_singleton.1 hb]
    exact hv₂ (hv₁ hpart)

/-- The atom of a comparison stands for it, with its sign. -/
theorem comparison_standsFor {terms : List NamedTerm} {op : Comparator} {rhs : Int}
    {positive : Bool} {a : Atom} (h : comparison terms op rhs positive t = .ok a u)
    (ht : t.WellFormed) (hroom : u.cnf.next ≤ Lit.varLimit) :
    OneStandsFor t u [a] (fun value => (Nnf.compare terms op rhs positive).Holds value) ∧
      AllStandFor t u [a] fun value => (Nnf.compare terms op rhs positive).Holds value := by
  obtain ⟨hbelow, hcomp⟩ := comparison_compiles h ht hroom
  refine ⟨⟨by simpa using hbelow, fun value => ?_⟩, by simpa using hbelow, fun value => ?_⟩
  · refine (hcomp value).mono ?_ (fun _ _ h => h) ?_
    · exact fun v _ hv hsome => by simpa [Nnf.Holds, hv] using hsome
    · exact fun v _ hv hpart => ⟨a, by simp, hv.2 hpart⟩
  · refine (hcomp value).mono ?_ (fun _ _ h => h) ?_
    · exact fun v _ hv hall => hv.1 (hall a (by simp))
    · exact fun v _ hv hpart => by simpa [Nnf.Holds, hv] using hpart

mutual

/-- **Disjuncts.** -/
theorem disjuncts_standFor : ∀ (f : Nnf) {t u : Tables} {atoms : List Atom},
    f.disjuncts t = .ok atoms u → t.WellFormed → u.cnf.next ≤ Lit.varLimit →
      f.Pure ∧ OneStandsFor t u atoms fun value => f.Holds value
  | .compare terms op rhs positive, t, u, atoms, h, ht, hroom => by
    obtain ⟨a, t₁, ha, h₁⟩ := Step.bind_eq_ok.1 h
    obtain ⟨rfl, rfl⟩ := Step.pure_eq_ok.1 h₁
    exact ⟨trivial, (comparison_standsFor ha ht hroom).1⟩
  | .statement e, t, u, atoms, h, ht, hroom => by
    obtain ⟨a, t₁, ha, h₁⟩ := Step.bind_eq_ok.1 h
    exact absurd ha (nested_ne_ok _ _)
  | .all parts, t, u, atoms, h, ht, hroom => by
    obtain ⟨as, t₁, has, h₁⟩ := Step.bind_eq_ok.1 h
    obtain ⟨a, t₂, ha, h₂⟩ := Step.bind_eq_ok.1 h₁
    obtain ⟨rfl, rfl⟩ := Step.pure_eq_ok.1 h₂
    have hle := ((growing_nameAll as).ok ha).cnf.next_le
    obtain ⟨hpure, hstand⟩ := allConjuncts_standFor parts has ht (hle.trans hroom)
    exact ⟨hpure, hstand.nameAll ha hroom⟩
  | .any parts, t, u, atoms, h, ht, hroom => allDisjuncts_standFor parts h ht hroom

/-- The disjuncts of several parts stand for all their disjunctions. -/
theorem allDisjuncts_standFor : ∀ (fs : List Nnf) {t u : Tables} {atoms : List Atom},
    Nnf.allDisjuncts fs t = .ok atoms u → t.WellFormed → u.cnf.next ≤ Lit.varLimit →
      Nnf.AllPure fs ∧ OneStandsFor t u atoms fun value => Nnf.SomeHolds value fs
  | [], t, u, atoms, h, ht, hroom => by
    obtain ⟨rfl, rfl⟩ := Step.pure_eq_ok.1 h
    exact ⟨trivial, oneStandsFor_nil ht⟩
  | f :: fs, t, u, atoms, h, ht, hroom => by
    obtain ⟨as, t₁, has, h₁⟩ := Step.bind_eq_ok.1 h
    obtain ⟨bs, t₂, hbs, h₂⟩ := Step.bind_eq_ok.1 h₁
    obtain ⟨rfl, rfl⟩ := Step.pure_eq_ok.1 h₂
    have hle := ((growing_allDisjuncts fs).ok hbs).cnf.next_le
    obtain ⟨hpure, hstand⟩ := disjuncts_standFor f has ht (hle.trans hroom)
    obtain ⟨hpures, hstands⟩ := allDisjuncts_standFor fs hbs hstand.wellFormed hroom
    exact ⟨⟨hpure, hpures⟩, hstand.append hstands⟩

/-- **Conjuncts.** -/
theorem conjuncts_standFor : ∀ (f : Nnf) {t u : Tables} {atoms : List Atom},
    f.conjuncts t = .ok atoms u → t.WellFormed → u.cnf.next ≤ Lit.varLimit →
      f.Pure ∧ AllStandFor t u atoms fun value => f.Holds value
  | .compare terms op rhs positive, t, u, atoms, h, ht, hroom => by
    obtain ⟨a, t₁, ha, h₁⟩ := Step.bind_eq_ok.1 h
    obtain ⟨rfl, rfl⟩ := Step.pure_eq_ok.1 h₁
    exact ⟨trivial, (comparison_standsFor ha ht hroom).2⟩
  | .statement e, t, u, atoms, h, ht, hroom => by
    obtain ⟨a, t₁, ha, h₁⟩ := Step.bind_eq_ok.1 h
    exact absurd ha (nested_ne_ok _ _)
  | .all parts, t, u, atoms, h, ht, hroom => allConjuncts_standFor parts h ht hroom
  | .any parts, t, u, atoms, h, ht, hroom => by
    obtain ⟨as, t₁, has, h₁⟩ := Step.bind_eq_ok.1 h
    obtain ⟨a, t₂, ha, h₂⟩ := Step.bind_eq_ok.1 h₁
    obtain ⟨rfl, rfl⟩ := Step.pure_eq_ok.1 h₂
    have hle := ((growing_nameAny as).ok ha).cnf.next_le
    obtain ⟨hpure, hstand⟩ := allDisjuncts_standFor parts has ht (hle.trans hroom)
    exact ⟨hpure, hstand.nameAny ha hroom⟩

/-- The conjuncts of several parts stand for all their conjunctions. -/
theorem allConjuncts_standFor : ∀ (fs : List Nnf) {t u : Tables} {atoms : List Atom},
    Nnf.allConjuncts fs t = .ok atoms u → t.WellFormed → u.cnf.next ≤ Lit.varLimit →
      Nnf.AllPure fs ∧ AllStandFor t u atoms fun value => Nnf.AllHold value fs
  | [], t, u, atoms, h, ht, hroom => by
    obtain ⟨rfl, rfl⟩ := Step.pure_eq_ok.1 h
    exact ⟨trivial, allStandFor_nil ht⟩
  | f :: fs, t, u, atoms, h, ht, hroom => by
    obtain ⟨as, t₁, has, h₁⟩ := Step.bind_eq_ok.1 h
    obtain ⟨bs, t₂, hbs, h₂⟩ := Step.bind_eq_ok.1 h₁
    obtain ⟨rfl, rfl⟩ := Step.pure_eq_ok.1 h₂
    have hle := ((growing_allConjuncts fs).ok hbs).cnf.next_le
    obtain ⟨hpure, hstand⟩ := conjuncts_standFor f has ht (hle.trans hroom)
    obtain ⟨hpures, hstands⟩ := allConjuncts_standFor fs hbs hstand.wellFormed hroom
    exact ⟨⟨hpure, hpures⟩, hstand.append hstands⟩

end

/-! ### Formulas at the top -/

mutual

theorem growing_formula : ∀ f : Nnf, Growing f.formula
  | .compare .. => growing_demand _ _ _ _
  | .statement _ => growing_misplaced _
  | .all parts => growing_formulas parts
  | .any parts => (growing_allDisjuncts parts).bind fun _ => growing_clause _

theorem growing_formulas : ∀ fs : List Nnf, Growing (Nnf.formulas fs)
  | [] => growing_pure _
  | f :: fs => (growing_formula f).bind fun _ => growing_formulas fs

end

mutual

/-- What a formula is compiled to means the formula. -/
theorem formula_compiles : ∀ (f : Nnf) {t u : Tables} {x : Unit}, f.formula t = .ok x u →
    t.WellFormed → u.cnf.next ≤ Lit.varLimit → f.Pure ∧ ∀ value,
      Compiles value t u (fun _ => f.Holds value) (fun _ => f.Holds value) fun _ => True
  | .compare terms op rhs positive, t, u, x, h, ht, hroom =>
    ⟨trivial, demand_compiles h ht hroom⟩
  | .statement e, t, u, x, h, ht, hroom => absurd h (misplaced_ne_ok _ _)
  | .all parts, t, u, x, h, ht, hroom => formulas_compiles parts h ht hroom
  | .any parts, t, u, x, h, ht, hroom => by
    obtain ⟨atoms, t₁, hatoms, hclause⟩ := Step.bind_eq_ok.1 h
    have hle := ((growing_clause atoms).ok hclause).cnf.next_le
    obtain ⟨hpure, hstand⟩ := allDisjuncts_standFor parts hatoms ht (hle.trans hroom)
    refine ⟨hpure, fun value => ?_⟩
    have hwant : StableBelow t.cnf.next fun _ => Nnf.SomeHolds value parts := fun _ _ _ hp => hp
    refine (((hstand.compiles value).frame hwant).trans
      (clause_compiles hclause hstand.wellFormed hstand.below value) ?_ ?_).mono ?_ ?_ ?_
    · exact fun v hv => hv.1 hv.2
    · exact fun v w hvw hv =>
        ⟨fun hpart => stable_someEval hstand.below v w hvw (hv.1 hpart), hv.2⟩
    · exact fun v _ hv => hv.1 hv.2
    · exact fun v _ hv => ⟨trivial, hv⟩
    · exact fun _ _ _ => trivial

/-- What several formulas are compiled to means all of them. -/
theorem formulas_compiles : ∀ (fs : List Nnf) {t u : Tables} {x : Unit},
    Nnf.formulas fs t = .ok x u → t.WellFormed → u.cnf.next ≤ Lit.varLimit →
    Nnf.AllPure fs ∧ ∀ value,
      Compiles value t u (fun _ => Nnf.AllHold value fs) (fun _ => Nnf.AllHold value fs)
        fun _ => True
  | [], t, u, x, h, ht, hroom => by
    obtain ⟨-, rfl⟩ := Step.pure_eq_ok.1 h
    refine ⟨trivial, fun value => .refl ht ?_ ?_⟩
    · exact fun _ _ _ => trivial
    · exact fun _ _ _ _ => trivial
  | f :: fs, t, u, x, h, ht, hroom => by
    obtain ⟨y, t₁, hf, hfs⟩ := Step.bind_eq_ok.1 h
    have hle := ((growing_formulas fs).ok hfs).cnf.next_le
    obtain ⟨hpure, hcomp⟩ := formula_compiles f hf ht (hle.trans hroom)
    obtain ⟨hpures, hcomps⟩ := formulas_compiles fs hfs (hcomp fun _ => 0).wellFormed hroom
    exact ⟨⟨hpure, hpures⟩, fun value => (hcomp value).demandBoth (hcomps value)⟩

end

/-! ### Expressions -/

/-- An expression is a declaration or a demand of different values below its labels, or it is
compiled as its normal form. -/
theorem compile_cases (e : Expr) :
    (∃ name values, e.unlabeled = .int name values ∧ compile e = declare name values) ∨
      (∃ names, e.unlabeled = .allDifferent names ∧ compile e = allDifferent names) ∨
        compile e = (e.unlabeled.nnf true).formula := by
  rw [compile_nnf]
  split
  · next name values heq => exact .inl ⟨name, values, heq, rfl⟩
  · next names heq => exact .inr (.inl ⟨names, heq, rfl⟩)
  · exact .inr (.inr rfl)

/-- **Growth.** Compiling an expression only adds to the tables. -/
theorem growing_compile (e : Expr) : Growing (compile e) := by
  obtain ⟨name, values, -, heq⟩ | ⟨names, -, heq⟩ | heq := compile_cases e
  · rw [heq]
    exact growing_declare _ _
  · rw [heq]
    exact growing_allDifferent _
  · rw [heq]
    exact growing_formula _

/-- **Expressions.** The clauses of an expression demand it of the shown values, and nothing
else. -/
theorem compile_compiles {e : Expr} {x : Unit} (h : compile e t = .ok x u) (ht : t.WellFormed)
    (hroom : u.cnf.next ≤ Lit.varLimit) (value : String → Int) :
    Compiles value t u (fun _ => e.Holds value) (fun _ => e.Holds value) fun _ => True := by
  simp only [← Expr.holds_unlabeled e]
  obtain ⟨name, values, hun, heq⟩ | ⟨names, hun, heq⟩ | heq := compile_cases e
  · rw [heq] at h
    simpa [hun, Expr.Holds] using declare_compiles h ht hroom value
  · rw [heq] at h
    simpa [hun, Expr.Holds] using allDifferent_compiles h ht hroom value
  · rw [heq] at h
    obtain ⟨hpure, hcomp⟩ := formula_compiles _ h ht hroom
    refine (hcomp value).mono_const ?_
    rw [Expr.holds_nnf _ _ hpure]
    simp

end Compiler

end WeightedCsp

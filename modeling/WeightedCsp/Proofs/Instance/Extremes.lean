import WeightedCsp.Proofs.Instance.Charges

/-!
# Constraints at the ends of the machine range

The builder of a comparison has checked all values of its left side and their distances from the
right side.  So the products of a linear constraint fit when it is written into an instance.  What
the builder has not looked at is the constant next to the right side, which takes its place when a
strict comparison becomes a weak one: there is none below the least machine integer and none above
the greatest (`Comparator.brink?`).

The distances rule this out where the left side can be zero or come near it.  This holds of every
sum of indicators, which is zero where no indicator is (`indicatorRange?_around_zero`), but not of a
linear sum: one that is always less than `-1` is near enough to the least integer.  There and at the
other end the translation of a constraint faults, and nowhere else (`writeConstraint_settles`).
-/

namespace WeightedCsp

/-! ### Constants without a neighbour -/

namespace Comparator

variable {op : Comparator} {rhs lo hi : Int}

/-- The fault at the constant of a strict comparison that has no neighbour. -/
def brink? : Comparator → Int → Option Fault
  | lt, rhs => if rhs = Word.least then some .sub else none
  | gt, rhs => if rhs = Word.greatest then some .add else none
  | eq, _ | le, _ | ge, _ => none

theorem neighbourFits_of_brink? (hrhs : Word.InRange rhs) (h : op.brink? rhs = none) :
    op.NeighbourFits rhs := by
  cases op with
  | eq | le | ge => trivial
  | lt | gt =>
    simp only [brink?, ite_eq_right_iff, reduceCtorEq, imp_false] at h
    unfold NeighbourFits Word.InRange at *
    unfold Word.least Word.greatest at *
    omega

theorem weaken_of_brink? {t : Fault} (h : op.brink? rhs = some t) :
    Instance.Scribe.weaken op rhs = .error t := by
  cases op with
  | eq | le | ge => cases h
  | lt | gt =>
    obtain ⟨rfl, ⟨⟩⟩ := Option.ite_none_right_eq_some.1 h
    rfl

/-- A left side that can come near zero keeps the right side away from the ends. -/
theorem neighbourFits_of_fits (hrhs : Word.InRange rhs) (hfits : Fits rhs lo hi) (hlo : lo ≤ 0)
    (hhi : 0 ≤ hi) : op.NeighbourFits rhs := by
  have hbelow := hfits.below
  have habove := hfits.above
  cases op with
  | eq | le | ge => trivial
  | lt | gt =>
    unfold NeighbourFits Word.InRange at *
    unfold Word.least Word.greatest at *
    omega

end Comparator

/-- The range of a sum of indicators grows to both sides. -/
theorem indicatorRange?_around_zero {terms : List IndicatorTerm} {lo hi : Int} {r : Int × Int}
    (h : addRanges? (lo, hi) (terms.map fun t => some t.range) = some r) :
    r.1 ≤ lo ∧ hi ≤ r.2 := by
  induction terms generalizing lo hi with
  | nil =>
    cases h
    exact ⟨Int.le_refl _, Int.le_refl _⟩
  | cons t terms ih =>
    obtain ⟨hlo, hhi⟩ := ih (addRanges?_cons h).2.2
    have hleast : min t.coeff 0 ≤ 0 := Int.min_le_right _ _
    have hgreatest : 0 ≤ max t.coeff 0 := Int.le_max_right _ _
    omega

namespace Body

/-- The constant is a machine integer, and so is the number of predicates. -/
def OfWords : Body → Prop
  | .linear _ _ rhs | .pseudoBoolean _ _ rhs => Word.InRange rhs
  | .conflict terms => (terms.length : Int) ≤ Word.greatest
  | .allDifferent _ => True

/-- The fault at a linear constraint with a constant that has no neighbour. -/
def brink? : Body → Option Fault
  | .linear _ op rhs => op.brink? rhs
  | .pseudoBoolean .. | .conflict _ | .allDifferent _ => none

end Body

/-! ### Writing one constraint -/

namespace Constraint

/-- No name stands for two variables of the constraint. -/
def Consistent (c : Constraint) : Prop := ∀ x ∈ c.vars, ∀ y ∈ c.vars, x.name = y.name → x = y

instance (c : Constraint) : Decidable c.Consistent :=
  inferInstanceAs (Decidable (∀ x ∈ c.vars, ∀ y ∈ c.vars, x.name = y.name → x = y))

theorem WellFormed.neighboursFit {c : Constraint} (hc : c.WellFormed) (hwords : c.body.OfWords)
    (hbrink : c.body.brink? = none) : c.body.NeighboursFit := by
  obtain ⟨name, weight, body⟩ := c
  obtain ⟨-, hbody⟩ := hc
  cases body with
  | linear terms op rhs => exact Comparator.neighbourFits_of_brink? hwords hbrink
  | pseudoBoolean terms op rhs =>
    -- The range has zero in it, whatever the values are.
    obtain ⟨lo, hi, hrange, hfits, -⟩ := indicator_fits (fun _ => 0) hbody.2
    obtain ⟨hlo, hhi⟩ := indicatorRange?_around_zero hrange
    exact Comparator.neighbourFits_of_fits hwords hfits hlo hhi
  | conflict terms =>
    have hlength : (terms.length : Int) ≤ Word.greatest := hwords
    unfold Body.NeighboursFit Word.InRange Word.least
    omega
  | allDifferent vars => trivial

end Constraint

namespace Instance

variable {c : Constraint} {s u : Scribe} {xs : List Variable} {t : Fault}

theorem conOf_of_brink? (h : c.body.brink? = some t) : Scribe.conOf c = .error t := by
  obtain ⟨name, weight, body⟩ := c
  cases body with
  | linear terms op rhs =>
    have hdemand : Scribe.demandOf (.linear terms op rhs) = .error t := by
      rw [Scribe.demandOf, Comparator.weaken_of_brink? h]
      rfl
    unfold Scribe.conOf
    rw [hdemand]
    rfl
  | pseudoBoolean | conflict | allDifferent => cases h

/-- A variable that is known already is not written again. -/
theorem writeVariables_consistent
    (h : ∀ x ∈ s.vars ++ xs, ∀ y ∈ s.vars ++ xs, x.name = y.name → x = y) :
    ∃ u, Scribe.writeVariables xs s = .ok () u := by
  induction xs generalizing s with
  | nil => exact ⟨s, rfl⟩
  | cons x xs ih =>
    cases hfind : s.vars.find? (·.name = x.name) with
    | none =>
      have hwrite : Scribe.writeVariable x s =
          .ok (Scribe.varOf x) { s with vars := s.vars ++ [x] } := by
        unfold Scribe.writeVariable
        rw [hfind]
      obtain ⟨u, hu⟩ := ih (s := { s with vars := s.vars ++ [x] }) (by
        rw [← List.append_cons]
        exact h)
      exact ⟨u, Step.bind_eq_ok.2 ⟨_, _, hwrite, hu⟩⟩
    | some y =>
      have hname : y.name = x.name := by simpa using List.find?_some hfind
      have hy : y ∈ s.vars := List.mem_of_find?_eq_some hfind
      -- The variable that is found has the same name, so it is the same by consistency.
      have hyx : y = x := h y (List.mem_append_left _ hy) x (by simp) hname
      have hwrite : Scribe.writeVariable x s = .ok (Scribe.varOf x) s := by
        unfold Scribe.writeVariable
        rw [hfind]
        exact if_pos hyx
      have hmem : ∀ a ∈ s.vars ++ xs, a ∈ s.vars ++ x :: xs := fun a ha =>
        List.mem_append.2 ((List.mem_append.1 ha).imp_right (List.mem_cons_of_mem x))
      obtain ⟨u, hu⟩ := ih fun a ha b hb => h a (hmem a ha) b (hmem b hb)
      exact ⟨u, Step.bind_eq_ok.2 ⟨_, _, hwrite, hu⟩⟩

/-- There is no arithmetic in the writing of variables. -/
theorem writeVariables_ne_fault : Scribe.writeVariables xs s ≠ .error (.fault t) u := by
  intro h
  induction xs generalizing s with
  | nil => cases h
  | cons x xs ih =>
    rcases Step.bind_eq_error.1 h with hwrite | ⟨_, s₁, -, hrest⟩
    · unfold Scribe.writeVariable at hwrite
      split at hwrite
      · split_ifs at hwrite
        cases hwrite
      · cases hwrite
    · exact ih hrest

/-- What a scribe without a memory does. -/
theorem writeConstraint_start (c : Constraint) : Scribe.writeConstraint c .start = (do
    Scribe.writeVariables c.vars
    let con ← (Scribe.conOf c : Checked Con)
    modify fun s => { s with constraints := s.constraints ++ [c] }
    return con : Writing Con) .start := rfl

/-- **The builders protect the translation,** but for the neighbour of a constant at an end of the
machine range.  All products of a linear constraint fit.  A fault is that of a missing neighbour,
and without it a consistent constraint is written. -/
theorem writeConstraint_settles (hc : c.Built) (hwords : c.body.OfWords) :
    (∀ terms op rhs, c.body = .linear terms op rhs →
      ∀ t ∈ terms, ∀ v ∈ t.var.domain, Word.InRange (t.coeff * v)) ∧
    (∀ t s, Scribe.writeConstraint c .start = .error (.fault t) s → c.body.brink? = some t) ∧
    (c.Consistent → match c.body.brink? with
      | none => ∃ s, Scribe.writeConstraint c .start = .ok (conFor c) s
      | some t => ∃ s, Scribe.writeConstraint c .start = .error (.fault t) s) := by
  have hform := hc.wellFormed
  have hcon : c.body.brink? = none → Scribe.conOf c = .ok (conFor c) := fun hbrink =>
    (conOf_eq_ok hform).2 ⟨hform.neighboursFit hwords hbrink, rfl⟩
  refine ⟨fun _ _ _ h => inRange_products hform h, fun t s h => ?_, fun hconsistent => ?_⟩
  · rw [writeConstraint_start] at h
    -- Writing the variables never faults, so the fault is one of the constraint itself.
    rcases Step.bind_eq_error.1 h with hvars | ⟨_, s₁, -, h₁⟩
    · exact absurd hvars writeVariables_ne_fault
    rcases Step.bind_eq_error.1 h₁ with hfault | ⟨_, s₂, -, h₂⟩
    · obtain ⟨⟨t', hfault, ⟨⟩⟩, -⟩ := Step.checked_eq_error.1 hfault
      cases hbrink : c.body.brink? with
      | none =>
        rw [hcon hbrink] at hfault
        cases hfault
      | some t' =>
        rw [conOf_of_brink? hbrink] at hfault
        cases hfault
        rfl
    · cases h₂
  · have hvars : ∃ u, Scribe.writeVariables c.vars .start = .ok () u :=
      writeVariables_consistent hconsistent
    obtain ⟨u, hu⟩ := hvars
    rw [writeConstraint_start]
    split
    · next hbrink =>
      exact ⟨_, Step.bind_eq_ok.2 ⟨(), u, hu, Step.bind_eq_ok.2
        ⟨conFor c, u, Step.checked_eq_ok.2 ⟨hcon hbrink, rfl⟩, rfl⟩⟩⟩
    · next t hbrink =>
      exact ⟨u, Step.bind_eq_error.2 (.inr ⟨(), u, hu, Step.bind_eq_error.2
        (.inl (Step.checked_eq_error.2 ⟨⟨t, conOf_of_brink? hbrink, rfl⟩, rfl⟩))⟩)⟩

end Instance

namespace Model.Sample

/-- A variable with negative values only. -/
def below : Variable := ⟨"x", ⟨[-5, -2], by decide, by decide⟩⟩

/-- The variable is less than a bound. -/
def deep (bound : Int) : Constraint := ⟨"deep", .hard, .linear [⟨1, below⟩] .lt bound⟩

end Model.Sample

namespace Instance

open Model.Sample

/-- One above the least integer, a strict bound has a neighbour. -/
theorem writeConstraint_settles_deep : (deep (Word.least + 1)).Built ∧
    (∃ s, Scribe.writeConstraint (deep (Word.least + 1)) .start =
      .ok (conFor (deep (Word.least + 1))) s) ∧
    conFor (deep (Word.least + 1)) =
      ⟨"deep", .hard, .linear [⟨-5, "x", "-5"⟩, ⟨-2, "x", "-2"⟩] .le Word.least⟩ := by
  have hlinear : Constraint.linear "deep" .hard [⟨1, below⟩] (some .lt) (Word.least + 1) =
      .ok (deep (Word.least + 1)) := rfl
  have hbuilt : (deep (Word.least + 1)).Built := .linear hlinear
  have hwords : (deep (Word.least + 1)).body.OfWords := by
    show Word.InRange _
    decide
  exact ⟨hbuilt, (writeConstraint_settles hbuilt hwords).2.2 (by decide), by decide⟩

/-- The least integer itself has none, and a builder accepts it as a strict bound. -/
theorem writeConstraint_overflows :
    Constraint.linear "deep" .hard [⟨1, below⟩] (some .lt) Word.least = .ok (deep Word.least) ∧
    ∃ s, Scribe.writeConstraint (deep Word.least) .start = .error (.fault .sub) s :=
  ⟨rfl, _, rfl⟩

end Instance

end WeightedCsp

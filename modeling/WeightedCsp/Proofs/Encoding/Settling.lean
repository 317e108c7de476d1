import WeightedCsp.Proofs.Encoding.Failures
import WeightedCsp.Proofs.Encoding.Supply

/-!
# How pseudo-Boolean encodings end

The numbers of a sum are checked on their way into the clauses: what leaves the machine range is
reported as an overflow.  `Encoder.Settled` says that a run has ended with a result, with such a
report, or at the end of the pool of variables.  What follows a normal form ends so, whatever the
number of variables (`PseudoBoolean.ends_encodeAtMost`), and a normal form is given, or refused with
such a report.

One operation is not checked, the change of a sign.  It faults at the least machine integer, which
has no opposite.  For an upper bound it is applied to the coefficient that the weights of a variable
add up to; for a lower bound, to every weight before.  Apart from this, all pseudo-Boolean encodings
settle (`PseudoBoolean.encode_settles`).
-/

namespace WeightedCsp

/-! ### Encoders that settle -/

namespace Encoder

variable {α : Type} {x : Encoder EncodingError α} {p : α → Prop}

/-- A run has ended as it should. -/
inductive Settled (post : α → Prop) : EStateM.Result (Failure EncodingError) Cnf α → Prop
  /-- There is a result. -/
  | done {a : α} {t : Cnf} : post a → Settled post (.ok a t)
  /-- A number that does not fit is reported. -/
  | overflow {t : Cnf} : Settled post (.error (.error .overflow) t)
  /-- The pool has no room for the next variable. -/
  | exhausted {t : Cnf} : poolLimit ≤ t.next + 1 → Settled post (.error (.fault .add) t)

theorem Ended.settled {P : Nat → Prop} {s : Cnf} {r : EStateM.Result (Failure EncodingError) Cnf α}
    (h : Ended P p s r) : Settled p r := by
  cases h with
  | done ha _ => exact .done ha
  | exhausted ht => exact .exhausted ht

/-- Every run stays within the variables that it ends with. -/
theorem settled_of_ends (h : ∀ limit, Ends limit (fun _ => True) x p) (s : Cnf) :
    Settled p (x s) :=
  (h (x.after s).next s (fun _ _ _ => trivial) (Nat.le_refl _)).settled

end Encoder

/-! ### Coefficients -/

namespace PseudoBoolean

open Encoder

variable {lits lits' : List (Lit × Int)} {coeffs coeffs' : List (Nat × Int)} {offset offset' : Int}
  {x : Nat} {w : Int} {bound : Int}

/-- What the weights of a variable add up to; those of its negation count with the other sign. -/
def coefficient (x : Nat) (lits : List (Lit × Int)) : Int :=
  (lits.map fun p => if p.1.var = x then (if p.1.neg then -p.2 else p.2) else 0).sum

@[simp]
theorem coefficient_nil (x : Nat) : coefficient x [] = 0 := rfl

@[simp]
theorem coefficient_cons (x : Nat) (p : Lit × Int) (lits : List (Lit × Int)) :
    coefficient x (p :: lits) =
      (if p.1.var = x then (if p.1.neg then -p.2 else p.2) else 0) + coefficient x lits := by
  simp [coefficient]

/-- A coefficient is what a sum gains when its variable becomes true. -/
theorem coefficient_eq_total (x : Nat) (lits : List (Lit × Int)) :
    coefficient x lits = total (fun y => y = x) lits - total (fun _ => false) lits := by
  induction lits with
  | nil => rfl
  | cons p lits ih =>
    obtain ⟨⟨y, neg⟩, w⟩ := p
    simp only [coefficient_cons, total_cons, ih, Valuation.lit]
    by_cases hy : y = x <;> cases neg <;> simp [hy] <;> omega

/-- Coefficients of different variables in ascending order, which fit. -/
structure Collected (coeffs : List (Nat × Int)) : Prop where
  ascending : coeffs.Pairwise fun c d => c.1 < d.1
  fits : ∀ c ∈ coeffs, Word.InRange c.2

theorem inRange_of_fitting_add? {a b c : Int} (h : fitting (Word.add? a b) = .ok c) :
    Word.InRange c := by
  obtain ⟨hrange, rfl⟩ := Word.fit?_eq_some_iff.1 (fitting_eq_ok.1 h)
  exact hrange

/-- Adding to a coefficient keeps all of them in order and in range. -/
theorem Collected.addCoeff (hcoeffs : Collected coeffs)
    (h : PseudoBoolean.addCoeff x w coeffs = .ok coeffs') : Collected coeffs' := by
  induction coeffs generalizing coeffs' with
  | nil =>
    obtain ⟨c, hc, h⟩ := Checked.bind_eq_ok.1 h
    cases h
    exact ⟨List.pairwise_singleton _ _, List.forall_mem_singleton.2 (inRange_of_fitting_add? hc)⟩
  | cons d coeffs ih =>
    obtain ⟨y, c⟩ := d
    obtain ⟨⟨hy, hascending⟩, hc, hfits⟩ :=
      And.intro (List.pairwise_cons.1 hcoeffs.1) (List.forall_mem_cons.1 hcoeffs.2)
    rw [PseudoBoolean.addCoeff] at h
    split_ifs at h with hxy hlt
    · obtain ⟨e, he, h⟩ := Checked.bind_eq_ok.1 h
      cases h
      exact ⟨List.pairwise_cons.2 ⟨hy, hascending⟩,
        List.forall_mem_cons.2 ⟨inRange_of_fitting_add? he, hfits⟩⟩
    · obtain ⟨e, he, h⟩ := Checked.bind_eq_ok.1 h
      cases h
      refine ⟨List.pairwise_cons.2 ⟨List.forall_mem_cons.2 ⟨hlt, fun d hd => ?_⟩, hcoeffs.1⟩,
        List.forall_mem_cons.2 ⟨inRange_of_fitting_add? he, hcoeffs.2⟩⟩
      exact hlt.trans (hy d hd)
    · obtain ⟨rest, hrest, h⟩ := Checked.bind_eq_ok.1 h
      cases h
      -- The variable belongs further on, so all keys of the rest stay above the first one.
      obtain ⟨hascending', hfits'⟩ := ih ⟨hascending, hfits⟩ hrest
      have hyx : y < x := by omega
      exact ⟨List.pairwise_cons.2 ⟨(addCoeff_eq_ok hrest).2 (y < ·) hyx hy, hascending'⟩,
        List.forall_mem_cons.2 ⟨hc, hfits'⟩⟩

theorem Collected.collect (hcoeffs : Collected coeffs)
    (h : PseudoBoolean.collect coeffs offset lits = .ok (coeffs', offset')) :
    Collected coeffs' := by
  induction lits generalizing coeffs offset with
  | nil =>
    cases h
    exact hcoeffs
  | cons p lits ih =>
    obtain ⟨l, w⟩ := p
    rw [PseudoBoolean.collect] at h
    split_ifs at h with hneg
    · obtain ⟨cs, hcs, h⟩ := Checked.bind_eq_ok.1 h
      obtain ⟨o, -, h⟩ := Checked.bind_eq_ok.1 h
      rw [subCoeff_eq_addCoeff] at hcs
      exact ih (hcoeffs.addCoeff hcs) h
    · obtain ⟨cs, hcs, h⟩ := Checked.bind_eq_ok.1 h
      exact ih (hcoeffs.addCoeff hcs) h

/-- Where no variable is true, the sum is zero. -/
theorem coeffTotal_eq_zero {v : Valuation} (h : ∀ c ∈ coeffs, v c.1 = false) :
    coeffTotal v coeffs = 0 := by
  induction coeffs with
  | nil => rfl
  | cons c coeffs ih =>
    obtain ⟨hc, hrest⟩ := List.forall_mem_cons.1 h
    simp [hc, ih hrest]

/-- With one variable true, the sum is its coefficient. -/
theorem Collected.coeffTotal_mem (hcoeffs : Collected coeffs) {c : Nat × Int} (hc : c ∈ coeffs) :
    coeffTotal (fun y => y = c.1) coeffs = c.2 := by
  induction coeffs with
  | nil => cases hc
  | cons d coeffs ih =>
    obtain ⟨hd, hascending⟩ := List.pairwise_cons.1 hcoeffs.1
    rcases List.mem_cons.1 hc with rfl | hmem
    · have hrest : coeffTotal (fun y => y = c.1) coeffs = 0 :=
        coeffTotal_eq_zero fun e he => decide_eq_false (hd e he).ne'
      simp [hrest]
    · have hne : ¬d.1 = c.1 := (hd c hmem).ne
      simpa [hne] using ih ⟨hascending, (List.forall_mem_cons.1 hcoeffs.2).2⟩ hmem

/-- **Coefficients.** What is collected for a variable is what its weights add up to. -/
theorem collect_eq_ok (h : collect [] 0 lits = .ok (coeffs, offset)) :
    ∀ c ∈ coeffs, Word.InRange c.2 ∧ c.2 = coefficient c.1 lits := by
  intro c hc
  have hcoeffs : Collected coeffs :=
    Collected.collect ⟨List.Pairwise.nil, List.forall_mem_nil _⟩ h
  refine ⟨hcoeffs.fits c hc, ?_⟩
  -- Collecting keeps the value of the sum.  Between the valuation that makes nothing true and the
  -- one that makes only this variable true, both sides change by the coefficient.
  have hone := (total_collect h).1 fun y => y = c.1
  have hnone := (total_collect h).1 fun _ => false
  have hzero : coeffTotal (fun _ => false) coeffs = 0 := coeffTotal_eq_zero fun _ _ => rfl
  rw [hcoeffs.coeffTotal_mem hc, coeffTotal_nil] at hone
  rw [hzero, coeffTotal_nil] at hnone
  rw [coefficient_eq_total]
  omega

/-! ### Normal forms -/

/-- A coefficient whose sign cannot be changed is the least machine integer. -/
theorem normalize_cases (lits : List (Lit × Int)) (bound : Int) :
    (∃ normal, normalize lits bound = .ok normal) ∨
      normalize lits bound = .error (.error .overflow) ∨
      normalize lits bound = .error (.fault .neg) ∧ ∃ x, coefficient x lits = Word.least := by
  cases h : normalize lits bound with
  | ok normal => exact .inl ⟨normal, rfl⟩
  | error e =>
    rcases fails_normalize lits bound e h with rfl | ⟨rfl, coeffs, offset, hcollect, c, hc, -, hneg⟩
    · exact .inr (.inl rfl)
    · refine .inr (.inr ⟨rfl, c.1, ?_⟩)
      obtain ⟨hfits, hcoefficient⟩ := collect_eq_ok hcollect c hc
      rw [← hcoefficient]
      unfold Word.InRange Word.least Word.greatest at *
      omega

/-! ### Bounds -/

/-- What follows the normal form of an upper bound settles. -/
theorem encodeAtMost_cases (lits : List (Lit × Int)) (bound : Int) (s : Cnf) :
    Settled (fun _ => True) (encodeAtMost lits bound s) ∨
      encodeAtMost lits bound s = .error (.fault .neg) s ∧
        ∃ x, coefficient x lits = Word.least := by
  rcases normalize_cases lits bound with ⟨normal, hnormal⟩ | hnormal | ⟨hnormal, hx⟩
  · exact .inl (settled_of_ends (fun _ => ends_encodeAtMost hnormal fun _ _ _ _ _ => trivial) s)
  · refine .inl ?_
    unfold encodeAtMost
    rw [hnormal]
    exact .overflow
  · refine .inr ⟨?_, hx⟩
    unfold encodeAtMost
    rw [hnormal]
    rfl

/-- Negated weights have negated coefficients. -/
theorem coefficient_negateWeights (h : negateWeights lits = .ok lits') (x : Nat) :
    coefficient x lits' = -coefficient x lits := by
  have htotal := (negateWeights_eq_ok h).1
  rw [coefficient_eq_total, coefficient_eq_total, htotal, htotal]
  omega

/-- Weights are negated unless one of them has no opposite. -/
theorem negateWeights_eq_error {t : Fault} (h : negateWeights lits = .error t) :
    t = .neg ∧ ∃ p ∈ lits, ¬Word.InRange (-p.2) := by
  induction lits with
  | nil => cases h
  | cons p lits ih =>
    obtain ⟨l, w⟩ := p
    unfold negateWeights at h
    cases hw : Word.neg w with
    | error t' =>
      rw [hw] at h
      cases h
      obtain ⟨rfl, hrange⟩ := Word.neg_eq_error hw
      exact ⟨rfl, (l, w), List.mem_cons_self, hrange⟩
    | ok w' =>
      cases hrest : negateWeights lits with
      | error t' =>
        rw [hw, hrest] at h
        cases h
        obtain ⟨rfl, p, hp, hrange⟩ := ih hrest
        exact ⟨rfl, p, List.mem_cons_of_mem _ hp, hrange⟩
      | ok rest =>
        rw [hw, hrest] at h
        cases h

/-- A lower bound settles, unless a weight, or then a coefficient, has no opposite. -/
theorem encodeAtLeast_cases (lits : List (Lit × Int)) (bound : Int) (s : Cnf) :
    Settled (fun _ => True) (encodeAtLeast lits bound s) ∨
      encodeAtLeast lits bound s = .error (.fault .neg) s ∧
        ((∃ p ∈ lits, ¬Word.InRange (-p.2)) ∨ ∃ x, coefficient x lits = -Word.least) := by
  unfold encodeAtLeast
  cases hneg : negateWeights lits with
  | error t =>
    obtain ⟨rfl, hp⟩ := negateWeights_eq_error hneg
    exact .inr ⟨rfl, .inl hp⟩
  | ok lits' =>
    cases hbound : Word.neg? bound with
    | none => exact .inl .overflow
    | some bound' =>
      show Settled _ (encodeAtMost lits' bound' s) ∨ encodeAtMost lits' bound' s = _ ∧ _
      refine (encodeAtMost_cases lits' bound' s).imp_right fun ⟨hrun, x, hx⟩ => ⟨hrun, .inr ⟨x, ?_⟩⟩
      rw [coefficient_negateWeights hneg] at hx
      omega

/-- **Pseudo-Boolean encodings settle,** unless a sign has to be changed that cannot be.  For an
upper bound this is the sign of a coefficient, for a lower bound that of a weight or, after that, of
a coefficient with the other sign. -/
theorem encode_settles (lits : List (Lit × Int)) (bound : Int) (s : Cnf) :
    ((∃ normal, normalize lits bound = .ok normal) ∨
      normalize lits bound = .error (.error .overflow) ∨
      normalize lits bound = .error (.fault .neg) ∧ ∃ x, coefficient x lits = Word.least) ∧
    (Settled (fun _ => True) (encodeAtMost lits bound s) ∨
      encodeAtMost lits bound s = .error (.fault .neg) s ∧
        ∃ x, coefficient x lits = Word.least) ∧
    (Settled (fun _ => True) (encodeAtLeast lits bound s) ∨
      encodeAtLeast lits bound s = .error (.fault .neg) s ∧
        ((∃ p ∈ lits, ¬Word.InRange (-p.2)) ∨ ∃ x, coefficient x lits = -Word.least)) :=
  ⟨normalize_cases lits bound, encodeAtMost_cases lits bound s, encodeAtLeast_cases lits bound s⟩

/-- The least weight has no opposite, and neither has what two large ones add up to. -/
theorem encode_faults :
    normalize [(⟨0, false⟩, Word.least)] 0 = .error (.fault .neg) ∧
    (∀ s, encodeAtMost [(⟨0, false⟩, Word.least)] 0 s = .error (.fault .neg) s) ∧
    (∀ s, encodeAtLeast [(⟨0, false⟩, Word.least)] 0 s = .error (.fault .neg) s) ∧
    ∀ s, encodeAtLeast [(⟨0, false⟩, 4611686018427387904), (⟨0, false⟩, 4611686018427387904)] 0 s =
      .error (.fault .neg) s :=
  ⟨rfl, fun _ => rfl, fun _ => rfl, fun _ => rfl⟩

end PseudoBoolean

end WeightedCsp

import WeightedCsp.Encoding.PseudoBoolean
import WeightedCsp.Proofs.Encoding.Totalizer

/-!
# Correctness of pseudo-Boolean constraints

A bound on a sum of literals and its normal form are satisfied by the same valuations
(`normalize_holds`).  On the way the sum is first a sum over variables with a constant
(`total_collect`), then a sum of positive weights with another constant (`total_orient`).  So the
clauses of `encodeAtMost` and `encodeAtLeast` say exactly the bound.
-/

namespace WeightedCsp.PseudoBoolean

/-! ### Sums over variables -/

/-- The sum of the coefficients of the true variables. -/
def coeffTotal (v : Valuation) (coeffs : List (Nat × Int)) : Int :=
  (coeffs.map fun c => if v c.1 then c.2 else 0).sum

@[simp]
theorem coeffTotal_nil (v : Valuation) : coeffTotal v [] = 0 := rfl

@[simp]
theorem coeffTotal_cons (v : Valuation) (c : Nat × Int) (coeffs : List (Nat × Int)) :
    coeffTotal v (c :: coeffs) = (if v c.1 then c.2 else 0) + coeffTotal v coeffs := by
  simp [coeffTotal]

@[simp]
theorem total_nil (v : Valuation) : total v [] = 0 := rfl

@[simp]
theorem total_cons (v : Valuation) (p : Lit × Int) (lits : List (Lit × Int)) :
    total v (p :: lits) = (if v.lit p.1 then p.2 else 0) + total v lits := rfl

@[simp]
theorem total_append (v : Valuation) (as bs : List (Lit × Int)) :
    total v (as ++ bs) = total v as + total v bs := by
  induction as with
  | nil => simp
  | cons p as ih =>
    rw [List.cons_append, total_cons, total_cons, ih]
    omega

/-- A sum hangs on the variables of its literals. -/
theorem total_congr {n : Nat} {lits : List (Lit × Int)} (h : ∀ p ∈ lits, p.1.var < n)
    {v w : Valuation} (hvw : v.AgreesBelow n w) : total w lits = total v lits := by
  induction lits with
  | nil => rfl
  | cons p lits ih =>
    rw [total_cons, total_cons, hvw.lit_eq (h p (by simp)),
      ih fun q hq => h q (List.mem_cons_of_mem _ hq)]

/-- A number fits if there is one. -/
theorem fitting_eq_ok {o : Option Int} {x : Int} : fitting o = .ok x ↔ o = some x := by
  cases o with
  | none => simp [fitting]
  | some y => simp [fitting]

/-- A checked sum is the sum. -/
theorem fitting_add?_eq_ok {a b c : Int} (h : fitting (Word.add? a b) = .ok c) : c = a + b :=
  (Word.fit?_eq_some_iff.1 (fitting_eq_ok.1 h)).2

/-- A checked difference is the difference. -/
theorem fitting_sub?_eq_ok {a b c : Int} (h : fitting (Word.sub? a b) = .ok c) : c = a - b :=
  (Word.fit?_eq_some_iff.1 (fitting_eq_ok.1 h)).2

/-! ### Collecting coefficients -/

/-- Every variable that has a coefficient satisfies `Q`. -/
def KeysIn (Q : Nat → Prop) (coeffs : List (Nat × Int)) : Prop := ∀ c ∈ coeffs, Q c.1

theorem KeysIn.cons {Q : Nat → Prop} {c : Nat × Int} {coeffs : List (Nat × Int)} (hc : Q c.1)
    (h : KeysIn Q coeffs) : KeysIn Q (c :: coeffs) := by
  intro d hd
  rcases List.mem_cons.1 hd with rfl | hd
  · exact hc
  · exact h d hd

theorem KeysIn.head {Q : Nat → Prop} {c : Nat × Int} {coeffs : List (Nat × Int)}
    (h : KeysIn Q (c :: coeffs)) : Q c.1 := h c (by simp)

theorem KeysIn.tail {Q : Nat → Prop} {c : Nat × Int} {coeffs : List (Nat × Int)}
    (h : KeysIn Q (c :: coeffs)) : KeysIn Q coeffs :=
  fun d hd => h d (List.mem_cons_of_mem _ hd)

/-- Adding to a coefficient adds the weight to the sum where the variable is true, and brings in no
other variable. -/
theorem addCoeff_eq_ok {x : Nat} {w : Int} {coeffs coeffs' : List (Nat × Int)}
    (h : addCoeff x w coeffs = .ok coeffs') :
    (∀ v, coeffTotal v coeffs' = coeffTotal v coeffs + if v x then w else 0) ∧
      ∀ Q : Nat → Prop, Q x → KeysIn Q coeffs → KeysIn Q coeffs' := by
  induction coeffs generalizing coeffs' with
  | nil =>
    obtain ⟨c, hc, h⟩ := Checked.bind_eq_ok.1 h
    cases h
    have hc' := fitting_add?_eq_ok hc
    refine ⟨fun v => ?_, fun Q hx hQ => hQ.cons hx⟩
    simp [hc']
  | cons d coeffs ih =>
    obtain ⟨y, c⟩ := d
    rw [addCoeff] at h
    split_ifs at h with hxy hlt
    · obtain ⟨e, he, h⟩ := Checked.bind_eq_ok.1 h
      cases h
      have he' := fitting_add?_eq_ok he
      refine ⟨fun v => ?_, fun Q hx hQ => hQ.tail.cons hQ.head⟩
      simp only [coeffTotal_cons, he', hxy]
      split_ifs <;> omega
    · obtain ⟨e, he, h⟩ := Checked.bind_eq_ok.1 h
      cases h
      have he' := fitting_add?_eq_ok he
      refine ⟨fun v => ?_, fun Q hx hQ => hQ.cons hx⟩
      simp only [coeffTotal_cons, he']
      split_ifs <;> omega
    · obtain ⟨rest, hrest, h⟩ := Checked.bind_eq_ok.1 h
      cases h
      obtain ⟨htot, hkeys⟩ := ih hrest
      refine ⟨fun v => ?_, fun Q hx hQ => (hkeys Q hx hQ.tail).cons hQ.head⟩
      rw [coeffTotal_cons, coeffTotal_cons, htot v]
      omega

/-- Subtracting is adding the opposite. -/
theorem subCoeff_eq_addCoeff (x : Nat) (w : Int) (coeffs : List (Nat × Int)) :
    subCoeff x w coeffs = addCoeff x (-w) coeffs := by
  induction coeffs with
  | nil => simp only [subCoeff, addCoeff, Word.sub?, Word.add?, Int.sub_eq_add_neg]
  | cons c coeffs ih =>
    simp only [subCoeff, addCoeff, Word.sub?, Word.add?, Int.sub_eq_add_neg, ih]

/-- Subtracting from a coefficient takes the weight from the sum where the variable is true, and
brings in no other variable. -/
theorem subCoeff_eq_ok {x : Nat} {w : Int} {coeffs coeffs' : List (Nat × Int)}
    (h : subCoeff x w coeffs = .ok coeffs') :
    (∀ v, coeffTotal v coeffs' = coeffTotal v coeffs - if v x then w else 0) ∧
      ∀ Q : Nat → Prop, Q x → KeysIn Q coeffs → KeysIn Q coeffs' := by
  rw [subCoeff_eq_addCoeff] at h
  obtain ⟨htot, hkeys⟩ := addCoeff_eq_ok h
  refine ⟨fun v => ?_, hkeys⟩
  rw [htot v]
  split_ifs <;> omega

/-- Collecting keeps the value of the sum: `w·¬x` is `w - w·x`. -/
theorem total_collect {lits : List (Lit × Int)} {coeffs coeffs' : List (Nat × Int)}
    {offset offset' : Int} (h : collect coeffs offset lits = .ok (coeffs', offset')) :
    (∀ v, coeffTotal v coeffs' + offset' = coeffTotal v coeffs + offset + total v lits) ∧
      ∀ Q : Nat → Prop, (∀ p ∈ lits, Q p.1.var) → KeysIn Q coeffs → KeysIn Q coeffs' := by
  induction lits generalizing coeffs offset with
  | nil =>
    cases h
    exact ⟨fun v => by simp, fun Q _ hQ => hQ⟩
  | cons p lits ih =>
    obtain ⟨l, w⟩ := p
    rw [collect] at h
    split_ifs at h with hneg
    · -- A negated literal puts its weight into the constant and takes it off its variable.
      obtain ⟨cs, hcs, h⟩ := Checked.bind_eq_ok.1 h
      obtain ⟨o, ho, h⟩ := Checked.bind_eq_ok.1 h
      obtain ⟨htot, hkeys⟩ := ih h
      obtain ⟨htot', hkeys'⟩ := subCoeff_eq_ok hcs
      have ho' := fitting_add?_eq_ok ho
      refine ⟨fun v => ?_, fun Q hl hQ => ?_⟩
      · have hlit : v.lit l = !v l.var := by simp [Valuation.lit, hneg]
        rw [htot v, htot' v, total_cons, hlit, ho']
        cases v l.var
        · simp
          omega
        · simp
      · exact hkeys Q (fun q hq => hl q (List.mem_cons_of_mem _ hq))
          (hkeys' Q (hl (l, w) (by simp)) hQ)
    · obtain ⟨cs, hcs, h⟩ := Checked.bind_eq_ok.1 h
      obtain ⟨htot, hkeys⟩ := ih h
      obtain ⟨htot', hkeys'⟩ := addCoeff_eq_ok hcs
      refine ⟨fun v => ?_, fun Q hl hQ => ?_⟩
      · have hlit : v.lit l = v l.var := by simp [Valuation.lit, hneg]
        rw [htot v, htot' v, total_cons, hlit]
        cases v l.var
        · simp
        · simp
          omega
      · exact hkeys Q (fun q hq => hl q (List.mem_cons_of_mem _ hq))
          (hkeys' Q (hl (l, w) (by simp)) hQ)

/-! ### Positive weights -/

/-- Orienting keeps the value of the sum: a negative `c·x` is `c + (-c)·¬x`. -/
theorem total_orient {coeffs : List (Nat × Int)} {offset offset' : Int} {out : List (Lit × Int)}
    (h : orient offset coeffs = .ok (out, offset')) {Q : Nat → Prop} (hQ : KeysIn Q coeffs)
    (hlimit : ∀ y, Q y → y < Lit.varLimit) :
    (∀ v, total v out + offset' = coeffTotal v coeffs + offset) ∧
      ∀ p ∈ out, Q p.1.var ∧ 0 < p.2 := by
  induction coeffs generalizing offset out with
  | nil =>
    cases h
    exact ⟨fun v => by simp, by simp⟩
  | cons d coeffs ih =>
    obtain ⟨x, c⟩ := d
    have hx : Q x := hQ.head
    have hlit := Lit.ofVar_of_lt (hlimit x hx)
    rw [orient] at h
    split_ifs at h with hpos hneg
    · obtain ⟨⟨rest, o⟩, hrest, h⟩ := Checked.bind_eq_ok.1 h
      cases h
      obtain ⟨htot, hout⟩ := ih hrest hQ.tail
      rw [hlit]
      refine ⟨fun v => ?_, List.forall_mem_cons.2 ⟨⟨hx, hpos⟩, hout⟩⟩
      have := htot v
      rw [total_cons, coeffTotal_cons]
      simp only [Valuation.lit, Bool.bne_false]
      omega
    · -- The constant takes the coefficient, and the negated literal gives it back.
      obtain ⟨o, ho, h⟩ := Checked.bind_eq_ok.1 h
      obtain ⟨w, hw, h⟩ := Checked.bind_eq_ok.1 h
      obtain ⟨⟨rest, o'⟩, hrest, h⟩ := Checked.bind_eq_ok.1 h
      cases h
      obtain ⟨htot, hout⟩ := ih hrest hQ.tail
      have ho' := fitting_add?_eq_ok ho
      have hw' : w = -c := (Word.fit_eq_ok_iff.1 (Checked.lift_eq_ok.1 hw)).2
      rw [hlit]
      refine ⟨fun v => ?_, List.forall_mem_cons.2 ⟨⟨hx, show 0 < w by omega⟩, hout⟩⟩
      have := htot v
      rw [total_cons, coeffTotal_cons]
      cases hv : v x <;> simp [Valuation.lit, hv] <;> omega
    · obtain ⟨htot, hout⟩ := ih h hQ.tail
      refine ⟨fun v => ?_, hout⟩
      have hc : c = 0 := by omega
      simp [htot v, hc]

/-- A checked sum of a list is its sum. -/
theorem sum?_eq_some {xs : List Int} {acc s : Int} (h : xs.foldlM Word.add? acc = some s) :
    s = acc + xs.sum := by
  induction xs generalizing acc with
  | nil =>
    cases h
    simp
  | cons x xs ih =>
    rw [List.foldlM_cons] at h
    obtain ⟨b, hb, h⟩ := Option.bind_eq_some_iff.1 h
    have hb' := (Word.fit?_eq_some_iff.1 hb).2
    rw [ih h, List.sum_cons]
    omega

/-- With positive weights, a sum lies between zero and the sum of the weights. -/
theorem total_bounds {v : Valuation} {out : List (Lit × Int)} (hpos : ∀ p ∈ out, 0 < p.2) :
    0 ≤ total v out ∧ total v out ≤ (out.map (·.2)).sum := by
  induction out with
  | nil => simp
  | cons p out ih =>
    obtain ⟨h₁, h₂⟩ := ih fun q hq => hpos q (List.mem_cons_of_mem _ hq)
    have hp := hpos p (by simp)
    rw [total_cons, List.map_cons, List.sum_cons]
    split_ifs <;> omega

/-- Positive weights count alike as integers and as natural numbers. -/
theorem weightOf_eq_total {v : Valuation} {out : List (Lit × Int)} (hpos : ∀ p ∈ out, 0 < p.2) :
    (Totalizer.weightOf v (out.map fun p => (p.1, p.2.toNat)) : Int) = total v out := by
  induction out with
  | nil => rfl
  | cons p out ih =>
    have hp := hpos p (by simp)
    rw [List.map_cons, Totalizer.weightOf_cons, total_cons,
      ← ih fun q hq => hpos q (List.mem_cons_of_mem _ hq)]
    split_ifs <;> push_cast <;> omega

/-- What a normal form says. -/
def Normal.Holds (v : Valuation) : Normal → Prop
  | .tautology => True
  | .unsat => False
  | .atMost lits bound => Totalizer.weightOf v lits ≤ bound

/-- **Normal forms.** The bound and its normal form are satisfied by the same valuations, and
the normal form has no other variables. -/
theorem normalize_holds {lits : List (Lit × Int)} {bound : Int} {normal : Normal}
    (h : normalize lits bound = .ok normal) {Q : Nat → Prop} (hQ : ∀ p ∈ lits, Q p.1.var)
    (hlimit : ∀ y, Q y → y < Lit.varLimit) :
    (∀ v, normal.Holds v ↔ total v lits ≤ bound) ∧
      ∀ ls b, normal = .atMost ls b → ∀ p ∈ ls, Q p.1.var := by
  obtain ⟨⟨coeffs, offset⟩, hcollect, h⟩ := Checked.bind_eq_ok.1 h
  obtain ⟨⟨out, offset'⟩, horient, h⟩ := Checked.bind_eq_ok.1 h
  obtain ⟨k, hk, h⟩ := Checked.bind_eq_ok.1 h
  obtain ⟨htot, hkeys⟩ := total_collect hcollect
  obtain ⟨htot', hout⟩ := total_orient horient (hkeys Q hQ (by simp [KeysIn])) hlimit
  have hpos : ∀ p ∈ out, 0 < p.2 := fun p hp => (hout p hp).2
  have hk' := fitting_sub?_eq_ok hk
  have hiff : ∀ v, total v lits ≤ bound ↔ total v out ≤ k := by
    intro v
    have h₁ := htot v
    have h₂ := htot' v
    rw [coeffTotal_nil] at h₁
    omega
  -- The two trivial answers come from the range of a sum of positive weights.
  simp only at h
  split_ifs at h with hneg
  · cases h
    refine ⟨fun v => ?_, by simp⟩
    have := (total_bounds (v := v) hpos).1
    rw [hiff]
    simp only [Normal.Holds, false_iff]
    omega
  · obtain ⟨sum, hsum, h⟩ := Checked.bind_eq_ok.1 h
    have hsum' := sum?_eq_some (fitting_eq_ok.1 hsum)
    split_ifs at h with hle
    · cases h
      refine ⟨fun v => ?_, by simp⟩
      have := (total_bounds (v := v) hpos).2
      rw [hiff]
      simp only [Normal.Holds, true_iff]
      omega
    · cases h
      refine ⟨fun v => ?_, ?_⟩
      · rw [hiff]
        have := weightOf_eq_total (v := v) hpos
        simp only [Normal.Holds]
        omega
      · rintro ls b ⟨⟩ p hp
        obtain ⟨q, hq, rfl⟩ := List.mem_map.1 hp
        exact (hout q hq).1

/-! ### Encoding -/

/-- Upper bounds only add clauses and variables. -/
theorem growing_encodeAtMost (lits : List (Lit × Int)) (bound : Int) :
    Encoder.Growing (encodeAtMost lits bound) := by
  refine (Encoder.growing_except _).bind fun normal => ?_
  cases normal with
  | tautology => exact Encoder.growing_pure _
  | unsat => exact Encoder.growing_addClause _
  | atMost ls b =>
    exact (Totalizer.growing_encode _ _).bind fun _ => (Encoder.growing_except _).bind fun _ =>
      Encoder.growing_addClauses _

/-- Lower bounds only add clauses and variables. -/
theorem growing_encodeAtLeast (lits : List (Lit × Int)) (bound : Int) :
    Encoder.Growing (encodeAtLeast lits bound) :=
  (Encoder.growing_checked _).bind fun _ => (Encoder.growing_except _).bind fun _ =>
    growing_encodeAtMost _ _

/-- **Upper bounds.** The clauses say exactly that the weighted sum is at most the bound. -/
theorem encodeAtMost_encodes {lits : List (Lit × Int)} {bound : Int} {s t : Cnf} {x : Unit}
    (h : encodeAtMost lits bound s = .ok x t) (hroom : t.next ≤ Lit.varLimit)
    (hin : ∀ p ∈ lits, p.1.var < s.next) :
    Encodes s t (total · lits ≤ bound) (total · lits ≤ bound) fun _ => True := by
  have hg : s.Grows t := (growing_encodeAtMost lits bound).ok h
  obtain ⟨normal, s₁, hlift, h₁⟩ := Step.bind_eq_ok.1 h
  obtain ⟨hnormal, rfl⟩ := Step.except_eq_ok.1 hlift
  obtain ⟨hholds, hvars⟩ := normalize_holds (Q := (· < s.next)) hnormal hin
    fun y hy => Nat.lt_of_lt_of_le hy (hg.next_le.trans hroom)
  cases normal with
  | tautology =>
    obtain ⟨-, rfl⟩ := Step.pure_eq_ok.1 h₁
    exact Encodes.refl s (fun v => (hholds v).1 trivial) fun _ _ => trivial
  | unsat =>
    refine (Encodes.addClause h₁ (by simp)).mono ?_ ?_ fun _ _ => trivial
    · intro v hv
      cases hv
    · intro v hv
      exact absurd ((hholds v).2 hv) id
  | atMost ls b =>
    obtain ⟨tot, s₂, henc, h₂⟩ := Step.bind_eq_ok.1 h₁
    obtain ⟨units, s₃, hlift', h₃⟩ := Step.bind_eq_ok.1 h₂
    obtain ⟨hunits, rfl⟩ := Step.except_eq_ok.1 hlift'
    have hg₂ : s₂.Grows t := (Encoder.growing_addClauses _).ok h₃
    -- The totalizer is encoded for the bound and then held to it by units.
    obtain ⟨hins, hb, hrun⟩ := Totalizer.encode_eq_ok (by simp [Totalizer.ofInputs]) henc
    have hins' : tot.inputs = ls := hins
    have henf : tot.enforce b = .ok units := Failure.ofExcept_eq_ok.1 hunits
    rw [← hins] at hrun
    obtain ⟨hbelow, hencodes⟩ := Totalizer.enforce_encodes hb hrun henf
      (hg₂.next_le.trans hroom) (by rw [hins']; exact hvars ls b rfl)
    rw [hins'] at hencodes
    rw [Encoder.addClauses_eq_ok.1 h₃]
    refine (hencodes.withUnits hbelow).mono ?_ ?_ fun _ _ => trivial
    · rintro v ⟨hv, hdemanded⟩
      exact (hholds v).1 (hv hdemanded)
    · intro v hv
      exact (hholds v).2 hv

/-- Opposite weights give the opposite sum, over the same variables. -/
theorem negateWeights_eq_ok {lits lits' : List (Lit × Int)} (h : negateWeights lits = .ok lits') :
    (∀ v, total v lits' = -total v lits) ∧
      ∀ Q : Nat → Prop, (∀ p ∈ lits, Q p.1.var) → ∀ p ∈ lits', Q p.1.var := by
  induction lits generalizing lits' with
  | nil =>
    cases h
    simp
  | cons p lits ih =>
    obtain ⟨l, w⟩ := p
    obtain ⟨w', hw, h⟩ := Checked.bind_eq_ok.1 h
    obtain ⟨rest, hrest, h⟩ := Checked.bind_eq_ok.1 h
    cases h
    obtain ⟨htot, hvars⟩ := ih hrest
    have hw' := (Word.fit_eq_ok_iff.1 hw).2
    refine ⟨fun v => ?_, fun Q hQ p hp => ?_⟩
    · rw [total_cons, total_cons, htot v]
      split_ifs <;> omega
    · rcases List.mem_cons.1 hp with rfl | hp
      · exact hQ (l, w) (by simp)
      · exact hvars Q (fun q hq => hQ q (List.mem_cons_of_mem _ hq)) p hp

/-- **Lower bounds.** The clauses say exactly that the weighted sum is at least the bound. -/
theorem encodeAtLeast_encodes {lits : List (Lit × Int)} {bound : Int} {s t : Cnf} {x : Unit}
    (h : encodeAtLeast lits bound s = .ok x t) (hroom : t.next ≤ Lit.varLimit)
    (hin : ∀ p ∈ lits, p.1.var < s.next) :
    Encodes s t (bound ≤ total · lits) (bound ≤ total · lits) fun _ => True := by
  obtain ⟨lits', s₁, hlift, h₁⟩ := Step.bind_eq_ok.1 h
  obtain ⟨hneg, rfl⟩ := Step.checked_eq_ok.1 hlift
  obtain ⟨bound', s₂, hlift', h₂⟩ := Step.bind_eq_ok.1 h₁
  obtain ⟨hbound, rfl⟩ := Step.except_eq_ok.1 hlift'
  obtain ⟨htot, hvars⟩ := negateWeights_eq_ok hneg
  have hb : bound' = -bound := (Word.fit?_eq_some_iff.1 (fitting_eq_ok.1 hbound)).2
  have hiff : ∀ v, total v lits' ≤ bound' ↔ bound ≤ total v lits := by
    intro v
    rw [htot v, hb]
    omega
  refine (encodeAtMost_encodes h₂ hroom (hvars (· < s.next) hin)).mono ?_ ?_ fun _ h => h
  · intro v hv
    exact (hiff v).1 hv
  · intro v hv
    exact (hiff v).2 hv

end WeightedCsp.PseudoBoolean

import WeightedCsp.Proofs.Encoding.Settling

/-!
# Canonical forms of pseudo-Boolean bounds

What the weights of a bound come down to is an *oriented* sum: each variable once, in ascending
order, and every weight positive.  Its literals do not depend on each other, so one valuation makes
all of them true and another one none (`Oriented.exists_lit_eq`).  Hence the sum takes the value
zero and the sum of its weights, and nothing below or above.  A bound on it is therefore trivially
false exactly if it is negative, and trivially true exactly if the weights do not pass it.

An oriented sum is given by its values: its least value is zero, which settles the constant next to
it, and the weight of a literal is what the sum changes by with its variable (`Oriented.unique`).
So bounds whose sums differ by what the bounds differ by have the same normal form
(`normalize_unique`), however their literals are ordered, repeated and signed.

No number on the way passes what the weights and the bound add up to without their signs.  If that
is a machine integer, there is a normal form (`normalize_of_magnitude`).
-/

namespace WeightedCsp.PseudoBoolean

variable {lits lits' : List (Lit × Int)} {coeffs : List (Nat × Int)} {offset offset' : Int}
  {out out' : List (Lit × Int)} {bound bound' k k' : Int} {normal normal' : Normal}

/-! ### Sums of literals -/

/-- The order of the literals does not matter for the sum. -/
theorem total_perm (h : lits.Perm lits') (v : Valuation) : total v lits = total v lits' := by
  induction h with
  | nil => rfl
  | cons p _ ih => rw [total_cons, total_cons, ih]
  | swap p q lits =>
    simp only [total_cons]
    exact Int.add_left_comm _ _ _
  | trans _ _ ih₁ ih₂ => exact ih₁.trans ih₂

/-- With every literal true, the sum is the sum of the weights. -/
theorem total_eq_sum {v : Valuation} (h : ∀ p ∈ lits, v.lit p.1 = true) :
    total v lits = (lits.map (·.2)).sum := by
  induction lits with
  | nil => rfl
  | cons p lits ih =>
    obtain ⟨hp, hlits⟩ := List.forall_mem_cons.1 h
    rw [total_cons, if_pos hp, ih hlits, List.map_cons, List.sum_cons]

/-- With every literal false, the sum is zero. -/
theorem total_eq_zero {v : Valuation} (h : ∀ p ∈ lits, v.lit p.1 = false) : total v lits = 0 := by
  induction lits with
  | nil => rfl
  | cons p lits ih =>
    obtain ⟨hp, hlits⟩ := List.forall_mem_cons.1 h
    simp [hp, ih hlits]

/-- A variable that does not occur has the coefficient zero. -/
theorem coefficient_eq_zero {x : Nat} (h : ∀ p ∈ lits, p.1.var ≠ x) : coefficient x lits = 0 := by
  induction lits with
  | nil => rfl
  | cons p lits ih =>
    obtain ⟨hp, hlits⟩ := List.forall_mem_cons.1 h
    rw [coefficient_cons, if_neg hp, ih hlits, Int.add_zero]

/-! ### Oriented sums -/

/-- Each variable stands in the sum at most once, in ascending order, and with a positive weight. -/
structure Oriented (out : List (Lit × Int)) : Prop where
  /-- No literal is there in vain or the wrong way round. -/
  positive : ∀ p ∈ out, 0 < p.2
  /-- No variable is there twice. -/
  ascending : out.Pairwise fun p q => p.1.var < q.1.var

namespace Oriented

theorem tail {p : Lit × Int} (h : Oriented (p :: out)) : Oriented out :=
  ⟨(List.forall_mem_cons.1 h.positive).2, (List.pairwise_cons.1 h.ascending).2⟩

/-- No variable comes up twice. -/
theorem var_ne {p : Lit × Int} (h : Oriented (p :: out)) : ∀ q ∈ out, q.1.var ≠ p.1.var :=
  fun q hq => ((List.pairwise_cons.1 h.ascending).1 q hq).ne'

/-- **Independence.** The literals can be made all true, and all false. -/
theorem exists_lit_eq (h : Oriented out) (b : Bool) :
    ∃ v : Valuation, ∀ p ∈ out, v.lit p.1 = b := by
  induction out with
  | nil => exact ⟨fun _ => b, List.forall_mem_nil _⟩
  | cons p out ih =>
    obtain ⟨v, hv⟩ := ih h.tail
    -- The variable of the first literal is free, for it does not occur in the others.
    refine ⟨Function.update v p.1.var (b != p.1.neg), List.forall_mem_cons.2 ⟨?_, fun q hq => ?_⟩⟩
    · cases b <;> simp [Valuation.lit]
    · rw [Valuation.lit, Function.update_of_ne (h.var_ne q hq)]
      exact hv q hq

/-- Zero is a value of the sum. -/
theorem exists_total_eq_zero (h : Oriented out) : ∃ v, total v out = 0 :=
  (h.exists_lit_eq false).imp fun _ hv => total_eq_zero hv

/-- The sum of the weights is a value of the sum. -/
theorem exists_total_eq_sum (h : Oriented out) : ∃ v, total v out = (out.map (·.2)).sum :=
  (h.exists_lit_eq true).imp fun _ hv => total_eq_sum hv

/-- The coefficient of a variable in the sum is its weight, up to the sign of the literal. -/
theorem coefficient_of_mem (h : Oriented out) {p : Lit × Int} (hp : p ∈ out) :
    coefficient p.1.var out = if p.1.neg then -p.2 else p.2 := by
  induction out with
  | nil => cases hp
  | cons q out ih =>
    rw [coefficient_cons]
    rcases List.mem_cons.1 hp with rfl | hp
    · rw [if_pos rfl, coefficient_eq_zero h.var_ne, Int.add_zero]
    · rw [if_neg (h.var_ne p hp).symm, ih h.tail hp, Int.zero_add]

/-- What stands in the sum can be read off the coefficients. -/
theorem mem_iff (h : Oriented out) (p : Lit × Int) :
    p ∈ out ↔ 0 < p.2 ∧ coefficient p.1.var out = if p.1.neg then -p.2 else p.2 := by
  refine ⟨fun hp => ⟨h.positive p hp, h.coefficient_of_mem hp⟩, fun ⟨hpos, hp⟩ => ?_⟩
  -- A coefficient that is not zero belongs to a literal of the sum, whose weight is positive too.
  obtain ⟨q, hq, hvar⟩ : ∃ q ∈ out, q.1.var = p.1.var := by
    by_contra hnone
    rw [coefficient_eq_zero fun q hq hvar => hnone ⟨q, hq, hvar⟩] at hp
    split_ifs at hp <;> omega
  have hqpos := h.positive q hq
  have hqp := h.coefficient_of_mem hq
  rw [hvar, hp] at hqp
  obtain ⟨⟨x, neg⟩, w⟩ := p
  obtain ⟨⟨y, neg'⟩, w'⟩ := q
  obtain rfl : y = x := hvar
  obtain ⟨rfl, rfl⟩ : neg' = neg ∧ w' = w := by
    cases neg <;> cases neg' <;> simp at hqp hpos hqpos ⊢ <;> omega
  exact hq

/-- **Uniqueness.** Oriented sums that always differ by the same amount are equal, and the amount is
zero. -/
theorem unique (h : Oriented out) (h' : Oriented out')
    (htotal : ∀ v, total v out - k = total v out' - k') : out = out' ∧ k = k' := by
  -- Both sums have the least value zero.
  have hk : k = k' := by
    obtain ⟨v, hv⟩ := h.exists_total_eq_zero
    obtain ⟨v', hv'⟩ := h'.exists_total_eq_zero
    have hle := (total_bounds (v := v) h'.positive).1
    have hle' := (total_bounds (v := v') h.positive).1
    have := htotal v
    have := htotal v'
    omega
  have hcoefficient : ∀ x, coefficient x out = coefficient x out' := by
    intro x
    rw [coefficient_eq_total, coefficient_eq_total]
    have := htotal fun y => y = x
    have := htotal fun _ => false
    omega
  refine ⟨?_, hk⟩
  have : Std.Irrefl fun p q : Lit × Int => p.1.var < q.1.var := ⟨fun _ => lt_irrefl _⟩
  have : Std.Antisymm fun p q : Lit × Int => p.1.var < q.1.var :=
    ⟨fun _ _ hpq hqp => absurd hqp hpq.asymm⟩
  refine h.ascending.eq_of_mem_iff h'.ascending fun p => ?_
  rw [h.mem_iff, h'.mem_iff, hcoefficient]

end Oriented

/-! ### Normal forms of oriented sums -/

/-- A bound that needs clauses: each variable stands in it at most once, in ascending order, with a
positive weight, and the weights pass the bound. -/
structure Reduced (ls : List WeightedLit) (b : Nat) : Prop where
  /-- No literal is there in vain. -/
  positive : ∀ p ∈ ls, 0 < p.2
  /-- No variable is there twice. -/
  ascending : ls.Pairwise fun p q => p.1.var < q.1.var
  /-- The bound is not kept by all literals together. -/
  bound_lt : b < (ls.map (·.2)).sum

/-- The normal form of an upper bound on an oriented sum. -/
def Normal.ofOriented (out : List (Lit × Int)) (k : Int) : Normal :=
  if k < 0 then .unsat
  else if (out.map (·.2)).sum ≤ k then .tautology
  else .atMost (out.map fun p => (p.1, p.2.toNat)) k.toNat

/-- The form is a tautology exactly where every valuation keeps the bound. -/
theorem Oriented.ofOriented_eq_tautology_iff (h : Oriented out) :
    Normal.ofOriented out k = .tautology ↔ ∀ v, total v out ≤ k := by
  unfold Normal.ofOriented
  split_ifs with hneg hle
  · obtain ⟨v, hv⟩ := h.exists_total_eq_zero
    refine iff_of_false not_false fun hall => ?_
    have := hall v
    omega
  · exact iff_of_true rfl fun v => (total_bounds h.positive).2.trans hle
  · obtain ⟨v, hv⟩ := h.exists_total_eq_sum
    exact iff_of_false not_false fun hall => hle (hv ▸ hall v)

/-- The form is a contradiction exactly where no valuation keeps the bound. -/
theorem Oriented.ofOriented_eq_unsat_iff (h : Oriented out) :
    Normal.ofOriented out k = .unsat ↔ ∀ v, ¬total v out ≤ k := by
  obtain ⟨v, hv⟩ := h.exists_total_eq_zero
  have hfalse : ¬k < 0 → ¬∀ v, ¬total v out ≤ k := fun hneg hnone => hnone v (by omega)
  unfold Normal.ofOriented
  split_ifs with hneg hle
  · refine iff_of_true rfl fun v => ?_
    have := (total_bounds (v := v) h.positive).1
    omega
  · exact iff_of_false not_false (hfalse hneg)
  · exact iff_of_false not_false (hfalse hneg)

/-- A bound that is left over is reduced: it can be passed, and no literal stands in vain. -/
theorem Oriented.reduced (h : Oriented out) {ls : List WeightedLit} {b : Nat}
    (hls : Normal.ofOriented out k = .atMost ls b) : Reduced ls b := by
  unfold Normal.ofOriented at hls
  split_ifs at hls with hneg hle
  cases hls
  refine ⟨?_, List.pairwise_map.2 h.ascending, ?_⟩
  · intro p hp
    obtain ⟨q, hq, rfl⟩ := List.mem_map.1 hp
    have := h.positive q hq
    show 0 < q.2.toNat
    omega
  · -- All literals together weigh more than the bound.
    obtain ⟨v, hv⟩ := h.exists_lit_eq true
    have hall : ∀ i ∈ out.map fun p => (p.1, p.2.toNat), v.lit i.1 = true :=
      List.forall_mem_map.2 hv
    have hweight := weightOf_eq_total (v := v) h.positive
    rw [total_eq_sum hv, Totalizer.weightOf_eq_sum hall] at hweight
    omega

/-! ### Normalizing -/

/-- The variables of the oriented literals are some of those that have coefficients. -/
theorem sublist_orient (h : orient offset coeffs = .ok (out, offset'))
    (hlimit : KeysIn (· < Lit.varLimit) coeffs) :
    (out.map (·.1.var)).Sublist (coeffs.map (·.1)) := by
  induction coeffs generalizing offset out with
  | nil =>
    cases h
    exact List.Sublist.slnil
  | cons d coeffs ih =>
    obtain ⟨x, c⟩ := d
    have hvar : ∀ neg, (Lit.ofVar x neg).var = x := fun _ => Nat.mod_eq_of_lt hlimit.head
    rw [orient] at h
    split_ifs at h with hpos hneg
    · obtain ⟨⟨rest, o⟩, hrest, h⟩ := Checked.bind_eq_ok.1 h
      cases h
      rw [List.map_cons, List.map_cons, hvar]
      exact (ih hrest hlimit.tail).cons_cons x
    · obtain ⟨o, -, h⟩ := Checked.bind_eq_ok.1 h
      obtain ⟨w, -, h⟩ := Checked.bind_eq_ok.1 h
      obtain ⟨⟨rest, o'⟩, hrest, h⟩ := Checked.bind_eq_ok.1 h
      cases h
      rw [List.map_cons, List.map_cons, hvar]
      exact (ih hrest hlimit.tail).cons_cons x
    · -- A coefficient of zero leaves its variable out.
      exact (ih h hlimit.tail).cons x

/-- The collected coefficients belong to variables of the sum. -/
theorem keysIn_collect (h : collect [] 0 lits = .ok (coeffs, offset))
    (hlits : ∀ p ∈ lits, p.1.var < Lit.varLimit) : KeysIn (· < Lit.varLimit) coeffs :=
  (total_collect h).2 _ hlits (List.forall_mem_nil _)

/-- Collecting and orienting make a sum oriented and shift it by a constant. -/
theorem oriented_of_orient (hcollect : collect [] 0 lits = .ok (coeffs, offset))
    (horient : orient offset coeffs = .ok (out, offset'))
    (hlits : ∀ p ∈ lits, p.1.var < Lit.varLimit) :
    Oriented out ∧ ∀ v, total v lits = total v out + offset' := by
  have hkeys := keysIn_collect hcollect hlits
  obtain ⟨htotal, hout⟩ := total_orient horient hkeys fun _ hy => hy
  have hcoeffs : Collected coeffs :=
    Collected.collect ⟨List.Pairwise.nil, List.forall_mem_nil _⟩ hcollect
  have hascending : (out.map (·.1.var)).Pairwise (· < ·) :=
    (List.pairwise_map.2 hcoeffs.ascending).sublist (sublist_orient horient hkeys)
  refine ⟨⟨fun p hp => (hout p hp).2, List.pairwise_map.1 hascending⟩, fun v => ?_⟩
  have := (total_collect hcollect).1 v
  rw [coeffTotal_nil] at this
  rw [htotal v]
  omega

/-- A normal form comes from literals with positive weights, one for each variable, with the same
difference of sum and bound. -/
theorem normalize_eq_ok (h : normalize lits bound = .ok normal)
    (hlits : ∀ p ∈ lits, p.1.var < Lit.varLimit) :
    ∃ out k, Oriented out ∧ (∀ v, total v lits - bound = total v out - k) ∧
      normal = .ofOriented out k := by
  obtain ⟨⟨coeffs, offset⟩, hcollect, h⟩ := Checked.bind_eq_ok.1 h
  obtain ⟨⟨out, offset'⟩, horient, h⟩ := Checked.bind_eq_ok.1 h
  obtain ⟨k, hk, h⟩ := Checked.bind_eq_ok.1 h
  obtain ⟨hout, htotal⟩ := oriented_of_orient hcollect horient hlits
  have hk' : k = bound - offset' := fitting_sub?_eq_ok hk
  refine ⟨out, k, hout, fun v => ?_, ?_⟩
  · rw [htotal v]
    omega
  · unfold Normal.ofOriented
    simp only at h
    split_ifs at h with hneg
    · rw [if_pos hneg]
      cases h
      rfl
    · obtain ⟨sum, hsum, h⟩ := Checked.bind_eq_ok.1 h
      obtain rfl : sum = 0 + (out.map (·.2)).sum := sum?_eq_some (fitting_eq_ok.1 hsum)
      rw [Int.zero_add] at h
      rw [if_neg hneg]
      split_ifs at h ⊢
      · cases h
        rfl
      · cases h
        rfl

/-- Bounds whose sums always differ by what the bounds differ by have the same normal form. -/
theorem normalize_unique (h : normalize lits bound = .ok normal)
    (h' : normalize lits' bound' = .ok normal') (hlits : ∀ p ∈ lits, p.1.var < Lit.varLimit)
    (hlits' : ∀ p ∈ lits', p.1.var < Lit.varLimit)
    (htotal : ∀ v, total v lits - bound = total v lits' - bound') : normal = normal' := by
  obtain ⟨out, k, hout, hvalue, rfl⟩ := normalize_eq_ok h hlits
  obtain ⟨out', k', hout', hvalue', rfl⟩ := normalize_eq_ok h' hlits'
  obtain ⟨rfl, rfl⟩ := hout.unique hout' fun v => by rw [← hvalue, ← hvalue', htotal]
  rfl

/-! ### Sums that fit -/

/-- What the weights add up to without their signs. -/
def magnitude (lits : List (Lit × Int)) : Nat := (lits.map (·.2.natAbs)).sum

@[simp]
theorem magnitude_cons (p : Lit × Int) (lits : List (Lit × Int)) :
    magnitude (p :: lits) = p.2.natAbs + magnitude lits := by
  simp [magnitude]

/-- No sum is larger than its magnitude. -/
theorem natAbs_total_le (v : Valuation) (lits : List (Lit × Int)) :
    (total v lits).natAbs ≤ magnitude lits := by
  induction lits with
  | nil => simp
  | cons p lits ih =>
    rw [total_cons, magnitude_cons]
    split_ifs <;> omega

/-- No two values of a sum are farther apart than its magnitude. -/
theorem total_sub_total_le (v w : Valuation) (lits : List (Lit × Int)) :
    total v lits - total w lits ≤ magnitude lits := by
  induction lits with
  | nil => simp
  | cons p lits ih =>
    rw [total_cons, total_cons, magnitude_cons]
    split_ifs <;> omega

theorem inRange_of_natAbs {a : Int} (h : (a.natAbs : Int) ≤ Word.greatest) : Word.InRange a := by
  unfold Word.InRange Word.least
  unfold Word.greatest at *
  omega

/-- A number that is small enough fits. -/
theorem fitting_of_natAbs {a : Int} (h : (a.natAbs : Int) ≤ Word.greatest) :
    fitting (Word.fit? a) = .ok a :=
  fitting_eq_ok.2 (Word.fit?_eq_some_iff.2 ⟨inRange_of_natAbs h, rfl⟩)

/-- The coefficients are not beyond `m` on either side. -/
def Within (m : Nat) (coeffs : List (Nat × Int)) : Prop := ∀ c ∈ coeffs, c.2.natAbs ≤ m

/-- A coefficient grows by the weight at most. -/
theorem addCoeff_within {m : Nat} (hcoeffs : Within m coeffs) (x : Nat) {w : Int}
    (hfit : ((m + w.natAbs : Nat) : Int) ≤ Word.greatest) :
    ∃ coeffs', addCoeff x w coeffs = .ok coeffs' ∧ Within (m + w.natAbs) coeffs' := by
  -- A coefficient that the weight is added to, be it an old one or zero, stays within range.
  have hadd : ∀ c : Int, c.natAbs ≤ m →
      fitting (Word.add? c w) = .ok (c + w) ∧ (c + w).natAbs ≤ m + w.natAbs := by
    intro c hc
    have hle : (c + w).natAbs ≤ m + w.natAbs := by omega
    exact ⟨fitting_of_natAbs (by omega), hle⟩
  have hwiden : ∀ {cs}, Within m cs → Within (m + w.natAbs) cs :=
    fun hcs c hc => (hcs c hc).trans (Nat.le_add_right _ _)
  obtain ⟨hzero, hzero'⟩ := hadd 0 (Nat.zero_le _)
  induction coeffs with
  | nil =>
    refine ⟨[(x, 0 + w)], ?_, List.forall_mem_singleton.2 hzero'⟩
    rw [addCoeff, hzero]
    rfl
  | cons d coeffs ih =>
    obtain ⟨y, c⟩ := d
    obtain ⟨hc, hrest⟩ := List.forall_mem_cons.1 hcoeffs
    rw [addCoeff]
    split_ifs
    · obtain ⟨hsum, hsum'⟩ := hadd c hc
      rw [hsum]
      exact ⟨_, rfl, List.forall_mem_cons.2 ⟨hsum', hwiden hrest⟩⟩
    · rw [hzero]
      exact ⟨_, rfl, List.forall_mem_cons.2 ⟨hzero', hwiden hcoeffs⟩⟩
    · obtain ⟨rest, hrun, hrest'⟩ := ih hrest
      rw [hrun]
      exact ⟨_, rfl, List.forall_mem_cons.2 ⟨hwiden hcoeffs (y, c) (by simp), hrest'⟩⟩

/-- Collected coefficients stay within the magnitude of what was collected. -/
theorem collect_within {m : Nat} (hcoeffs : Within m coeffs) (hoffset : offset.natAbs ≤ m)
    (hfit : ((m + magnitude lits : Nat) : Int) ≤ Word.greatest) :
    ∃ coeffs' offset', collect coeffs offset lits = .ok (coeffs', offset') ∧
      Within (m + magnitude lits) coeffs' ∧ offset'.natAbs ≤ m + magnitude lits := by
  induction lits generalizing coeffs offset m with
  | nil => exact ⟨coeffs, offset, rfl, hcoeffs, hoffset⟩
  | cons p lits ih =>
    obtain ⟨l, w⟩ := p
    rw [magnitude_cons, ← Nat.add_assoc] at hfit ⊢
    rw [collect, subCoeff_eq_addCoeff]
    split_ifs
    · obtain ⟨cs, hrun, hcs⟩ := addCoeff_within hcoeffs l.var (w := -w) (by omega)
      have hsum : fitting (Word.add? offset w) = .ok (offset + w) := fitting_of_natAbs (by omega)
      rw [hrun, hsum]
      rw [Int.natAbs_neg] at hcs
      exact ih hcs (by omega) hfit
    · obtain ⟨cs, hrun, hcs⟩ := addCoeff_within hcoeffs l.var (w := w) (by omega)
      rw [hrun]
      exact ih hcs (by omega) hfit

/-- With exactly the negative coefficients true, the sum is not positive. -/
theorem coeffTotal_nonpos {v : Valuation} (hv : ∀ c ∈ coeffs, (v c.1 = true ↔ c.2 < 0)) :
    coeffTotal v coeffs ≤ 0 := by
  induction coeffs with
  | nil => exact Int.le_refl _
  | cons c coeffs ih =>
    obtain ⟨hc, hrest⟩ := List.forall_mem_cons.1 hv
    have := ih hrest
    rw [coeffTotal_cons]
    split_ifs with hvc
    · have := hc.1 hvc
      omega
    · omega

/-- The constant falls from step to step, down to the value of the sum where exactly the variables
with negative coefficients are true. -/
theorem orient_of_natAbs {v : Valuation} (hv : ∀ c ∈ coeffs, (v c.1 = true ↔ c.2 < 0))
    (hcoeffs : ∀ c ∈ coeffs, (c.2.natAbs : Int) ≤ Word.greatest)
    (hoffset : (offset.natAbs : Int) ≤ Word.greatest)
    (hleast : ((coeffTotal v coeffs + offset).natAbs : Int) ≤ Word.greatest) :
    ∃ r, orient offset coeffs = .ok r := by
  induction coeffs generalizing offset with
  | nil => exact ⟨_, rfl⟩
  | cons d coeffs ih =>
    obtain ⟨x, c⟩ := d
    obtain ⟨hx, hvrest⟩ := List.forall_mem_cons.1 hv
    obtain ⟨hc, hrest⟩ := List.forall_mem_cons.1 hcoeffs
    simp only at hx hc
    rw [coeffTotal_cons] at hleast
    rw [orient]
    split_ifs with hpos hneg
    · rw [if_neg fun hvx => by have := hx.1 hvx; omega, Int.zero_add] at hleast
      obtain ⟨r, hr⟩ := ih hvrest hrest hoffset hleast
      rw [hr]
      exact ⟨_, rfl⟩
    · rw [if_pos (hx.2 hneg)] at hleast
      -- What is left can only take the constant further down.
      have hle := coeffTotal_nonpos hvrest
      have hfit : ((offset + c).natAbs : Int) ≤ Word.greatest := by omega
      have hadd : fitting (Word.add? offset c) = .ok (offset + c) := fitting_of_natAbs hfit
      have hopposite : Word.neg c = .ok (-c) :=
        Word.fit_eq_ok_iff.2 ⟨inRange_of_natAbs (by omega), rfl⟩
      obtain ⟨r, hr⟩ := ih hvrest hrest hfit (by omega)
      rw [hadd, hopposite]
      show ∃ r', (orient (offset + c) coeffs >>= _) = .ok r'
      rw [hr]
      exact ⟨_, rfl⟩
    · rw [if_neg fun hvx => hneg (hx.1 hvx), Int.zero_add] at hleast
      exact ih hvrest hrest hoffset hleast

/-- A sum of numbers that are not negative fits if its end does. -/
theorem sum?_of_le {xs : List Int} (hxs : ∀ x ∈ xs, 0 ≤ x) {acc : Int} (hacc : 0 ≤ acc)
    (hfit : acc + xs.sum ≤ Word.greatest) : xs.foldlM Word.add? acc = some (acc + xs.sum) := by
  induction xs generalizing acc with
  | nil => simp
  | cons x xs ih =>
    obtain ⟨hx, hrest⟩ := List.forall_mem_cons.1 hxs
    have hsum : 0 ≤ xs.sum := List.sum_nonneg hrest
    rw [List.sum_cons, ← Int.add_assoc] at hfit ⊢
    have hadd : Word.add? acc x = some (acc + x) :=
      Word.fit?_eq_some_iff.2 ⟨inRange_of_natAbs (by omega), rfl⟩
    rw [List.foldlM_cons, hadd]
    exact ih hrest (by omega) hfit

/-- A sum whose magnitude fits is collected and oriented without an overflow. -/
theorem orient_collect_of_magnitude (hfit : (magnitude lits : Int) ≤ Word.greatest) :
    ∃ coeffs offset out offset', collect [] 0 lits = .ok (coeffs, offset) ∧
      orient offset coeffs = .ok (out, offset') := by
  have hnil : Within 0 [] := List.forall_mem_nil _
  have hroom : ((0 + magnitude lits : Nat) : Int) ≤ Word.greatest := by omega
  obtain ⟨coeffs, offset, hcollect, hcoeffs, hoffset⟩ :=
    collect_within hnil (Nat.le_refl (Int.natAbs 0)) hroom
  have hcoeffs' : ∀ c ∈ coeffs, (c.2.natAbs : Int) ≤ Word.greatest := by
    intro c hc
    have := hcoeffs c hc
    omega
  -- Where the variables with negative coefficients are true, the sum is what the constant falls to.
  let v : Valuation := fun y => coefficient y lits < 0
  have hv : ∀ c ∈ coeffs, (v c.1 = true ↔ c.2 < 0) := by
    intro c hc
    rw [(collect_eq_ok hcollect c hc).2]
    exact decide_eq_true_iff
  have hvalue : coeffTotal v coeffs + offset = total v lits := by
    simpa using (total_collect hcollect).1 v
  have hleast : ((coeffTotal v coeffs + offset).natAbs : Int) ≤ Word.greatest := by
    have := natAbs_total_le v lits
    omega
  obtain ⟨⟨out, offset'⟩, horient⟩ := orient_of_natAbs hv hcoeffs' (by omega) hleast
  exact ⟨coeffs, offset, out, offset', hcollect, horient⟩

/-- **Sums that fit** have normal forms. -/
theorem normalize_of_magnitude (hlits : ∀ p ∈ lits, p.1.var < Lit.varLimit)
    (hfit : ((magnitude lits + bound.natAbs : Nat) : Int) ≤ Word.greatest) :
    ∃ normal, normalize lits bound = .ok normal := by
  obtain ⟨coeffs, offset, out, offset', hcollect, horient⟩ :=
    orient_collect_of_magnitude (show (magnitude lits : Int) ≤ Word.greatest by omega)
  obtain ⟨hout, htotal⟩ := oriented_of_orient hcollect horient hlits
  -- The constant is the least value of the sum, and the weights add up to its range.
  obtain ⟨low, hlow⟩ := hout.exists_total_eq_zero
  obtain ⟨high, hhigh⟩ := hout.exists_total_eq_sum
  have hconstant := htotal low
  have hweights := htotal high
  have hbound : fitting (Word.sub? bound offset') = .ok (bound - offset') := by
    have := natAbs_total_le low lits
    exact fitting_of_natAbs (by omega)
  have hnonneg : ∀ w ∈ out.map (·.2), 0 ≤ w :=
    List.forall_mem_map.2 fun p hp => (hout.positive p hp).le
  have hsum : fitting (Word.sum? (out.map (·.2))) = .ok (0 + (out.map (·.2)).sum) := by
    have := total_sub_total_le high low lits
    exact fitting_eq_ok.2 (sum?_of_le hnonneg (Int.le_refl 0) (by omega))
  rw [Int.zero_add] at hsum
  refine ⟨.ofOriented out (bound - offset'), ?_⟩
  unfold normalize Normal.ofOriented
  simp only [hcollect, horient, hbound, hsum, bind, Except.bind]
  split_ifs
  · rfl
  · rfl
  · rfl

/-! ### Canonical forms -/

/-- **Normal forms are canonical.** There is one for every bound that fits together with all the
weights.  The normal form is trivially true exactly if every valuation keeps the bound, and
trivially false exactly if none does.  Otherwise it is a bound on different variables in ascending
order, with positive weights that pass it, and the same valuations keep it.  The order of the
literals makes no difference. -/
theorem normalize_canonical (hlits : ∀ p ∈ lits, p.1.var < Lit.varLimit) :
    (((magnitude lits + bound.natAbs : Nat) : Int) ≤ Word.greatest →
      ∃ normal, normalize lits bound = .ok normal) ∧
    ∀ normal, normalize lits bound = .ok normal →
      (normal = .tautology ↔ ∀ v, total v lits ≤ bound) ∧
      (normal = .unsat ↔ ∀ v, ¬total v lits ≤ bound) ∧
      (∀ ls b, normal = .atMost ls b →
        Reduced ls b ∧ ∀ v, Totalizer.weightOf v ls ≤ b ↔ total v lits ≤ bound) ∧
      ∀ lits' normal', lits.Perm lits' → normalize lits' bound = .ok normal' →
        normal' = normal := by
  refine ⟨normalize_of_magnitude hlits, fun normal h => ?_⟩
  have hholds := (normalize_holds h hlits fun _ hy => hy).1
  obtain ⟨out, k, hout, hvalue, hnormal⟩ := normalize_eq_ok h hlits
  have hiff : ∀ v, total v lits ≤ bound ↔ total v out ≤ k := by
    intro v
    have := hvalue v
    omega
  simp only [hiff]
  refine ⟨?_, ?_, ?_, fun lits' normal' hperm h' => ?_⟩
  · rw [hnormal]
    exact hout.ofOriented_eq_tautology_iff
  · rw [hnormal]
    exact hout.ofOriented_eq_unsat_iff
  · rintro ls b rfl
    exact ⟨hout.reduced hnormal.symm, fun v => (hholds v).trans (hiff v)⟩
  · refine normalize_unique h' h (fun p hp => hlits p (hperm.mem_iff.2 hp)) hlits fun v => ?_
    rw [total_perm hperm]

/-- A sum with a variable that cancels out, one of weight zero and one of negative weight. -/
def tangledSum : List (Lit × Int) :=
  [(⟨2, false⟩, -3), (⟨0, true⟩, 2), (⟨1, false⟩, 5), (⟨1, true⟩, 5), (⟨0, false⟩, 4),
    (⟨3, false⟩, 0)]

/-- The coefficients are `2`, `0`, `-3` and `0`, next to a constant of `7`, which turning the `-3`
takes down to `4`. -/
theorem normalize_canonical_tangledSum :
    normalize tangledSum 8 = .ok (.atMost [(⟨0, false⟩, 2), (⟨2, true⟩, 3)] 4) ∧
    Reduced [(⟨0, false⟩, 2), (⟨2, true⟩, 3)] 4 ∧
    (∀ v, Totalizer.weightOf v [(⟨0, false⟩, 2), (⟨2, true⟩, 3)] ≤ 4 ↔ total v tangledSum ≤ 8) ∧
    (∀ v, total v tangledSum ≤ 9) ∧ (∀ v, ¬total v tangledSum ≤ 3) ∧
    tangledSum.Perm tangledSum.reverse ∧
    normalize tangledSum.reverse 8 = normalize tangledSum 8 := by
  have hlits : ∀ p ∈ tangledSum, p.1.var < Lit.varLimit := by decide
  have hrun : normalize tangledSum 8 = .ok (.atMost [(⟨0, false⟩, 2), (⟨2, true⟩, 3)] 4) := rfl
  have hkept : normalize tangledSum 9 = .ok .tautology := rfl
  have hbroken : normalize tangledSum 3 = .ok .unsat := rfl
  have hperm : tangledSum.Perm tangledSum.reverse := (List.reverse_perm _).symm
  obtain ⟨-, -, hreduced, horder⟩ := (normalize_canonical hlits).2 _ hrun
  obtain ⟨hls, hholds⟩ := hreduced _ _ rfl
  -- The weights fit, so the reversed sum has a normal form as well.
  have hlits' : ∀ p ∈ tangledSum.reverse, p.1.var < Lit.varLimit := by decide
  have hfit : ((magnitude tangledSum.reverse + Int.natAbs 8 : Nat) : Int) ≤ Word.greatest := by
    decide
  obtain ⟨normal, hreverse⟩ := (normalize_canonical hlits').1 hfit
  refine ⟨hrun, hls, hholds, ((normalize_canonical hlits).2 _ hkept).1.1 rfl,
    ((normalize_canonical hlits).2 _ hbroken).2.1.1 rfl, hperm, ?_⟩
  rw [hreverse, hrun, horder _ normal hperm hreverse]

end WeightedCsp.PseudoBoolean

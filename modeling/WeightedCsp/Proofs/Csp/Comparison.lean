import WeightedCsp.Proofs.Csp.Statement

/-!
# Compiling comparisons

Merging terms keeps the sum (`total_mergeTerms`).  A comparison of one variable is an exact atom:
`c·x = r` is an equality of `x` if `c` divides `r`, and any other comparison is a bound on `x`,
rounded toward the side that loses no value (`termAtom_compiles`).  A comparison of several
variables is the pseudo-Boolean bound on the steps that the variables take (`sum_compiles`).
-/

namespace WeightedCsp

/-! ### Division -/

namespace Word

/-- A quotient is rounded towards zero. -/
theorem div_eq_ok {a b q : Int} (h : div a b = .ok q) : q = a.tdiv b := (fit_eq_ok_iff.1 h).2

/-- A remainder has the sign of the dividend. -/
theorem rem_eq_ok {a b r : Int} (h : rem a b = .ok r) : r = a.tmod b := by
  unfold rem at h
  split_ifs at h
  cases h
  rfl

/-- The truncated quotient is off by one where the dividend is negative and something is left. -/
theorem ediv_eq_tdiv (a b : Int) :
    a / b = if a.tmod b ≠ 0 ∧ a < 0 then a.tdiv b - b.sign else a.tdiv b := by
  have hdvd : b ∣ a ↔ a.tmod b = 0 := Int.dvd_iff_tmod_eq_zero
  rw [Int.tdiv_eq_ediv]
  simp only [hdvd]
  split_ifs <;> omega

/-- Rounding down by a positive divisor. -/
theorem divFloor_eq_ok {a b q : Int} (h : divFloor a b = .ok q) (hb : 0 < b) : q = a / b := by
  obtain ⟨d, hd, h₁⟩ := Checked.bind_eq_ok.1 h
  obtain ⟨r, hr, h₂⟩ := Checked.bind_eq_ok.1 h₁
  have hround : (r ≠ 0 ∧ (a < 0) ≠ (b < 0)) ↔ (r ≠ 0 ∧ a < 0) := by simp [hb.not_gt]
  rw [ediv_eq_tdiv, Int.sign_eq_one_of_pos hb, ← rem_eq_ok hr, ← div_eq_ok hd]
  simp only [hround] at h₂
  split_ifs at h₂ ⊢
  · exact (fit_eq_ok_iff.1 h₂).2
  · cases h₂
    rfl

/-- Rounding up by a negative divisor. -/
theorem divCeil_eq_ok {a b q : Int} (h : divCeil a b = .ok q) (hb : b < 0) : q = a / b := by
  obtain ⟨d, hd, h₁⟩ := Checked.bind_eq_ok.1 h
  obtain ⟨r, hr, h₂⟩ := Checked.bind_eq_ok.1 h₁
  have hround : (r ≠ 0 ∧ (a < 0) = (b < 0)) ↔ (r ≠ 0 ∧ a < 0) := by simp [hb]
  rw [ediv_eq_tdiv, Int.sign_eq_neg_one_of_neg hb, ← rem_eq_ok hr, ← div_eq_ok hd,
    Int.sub_neg]
  simp only [hround] at h₂
  split_ifs at h₂ ⊢
  · exact (fit_eq_ok_iff.1 h₂).2
  · cases h₂
    rfl

end Word

/-! ### Merging terms -/

namespace Expr

variable {value : String → Int}

@[simp]
theorem total_nil : total value [] = 0 := rfl

@[simp]
theorem total_cons {c : Int} {name : String} {terms : List NamedTerm} :
    total value ((c, name) :: terms) = c * value name + total value terms := rfl

/-- Terms with coefficient zero do not count. -/
theorem total_filter_ne_zero (terms : List NamedTerm) :
    total value (terms.filter fun t => t.1 ≠ 0) = total value terms := by
  induction terms with
  | nil => rfl
  | cons t terms ih =>
    obtain ⟨c, name⟩ := t
    by_cases hc : c = 0
    · simpa [hc] using ih
    · simpa [hc] using ih

/-- An interval as an expression. -/
@[simp]
theorem holds_intRange {name : String} {lb ub : Int} :
    (intRange name lb ub).Holds value ↔ lb ≤ value name ∧ value name ≤ ub := by
  show value name ∈ Ascending.range lb ub ↔ _
  exact Ascending.mem_range _ _ _

@[simp]
theorem holds_cmp {name : String} {op : Comparator} {k : Int} :
    (cmp name op k).Holds value ↔ op.Holds (value name) k := by
  simp [cmp, Holds]

@[simp]
theorem holds_le {name : String} {k : Int} : (le name k).Holds value ↔ value name ≤ k := holds_cmp

@[simp]
theorem holds_ge {name : String} {k : Int} : (ge name k).Holds value ↔ k ≤ value name := holds_cmp

@[simp]
theorem holds_eq {name : String} {k : Int} : (eq name k).Holds value ↔ value name = k := holds_cmp

theorem total_append {as bs : List NamedTerm} :
    total value (as ++ bs) = total value as + total value bs := by
  induction as with
  | nil => simp
  | cons t as ih =>
    obtain ⟨c, name⟩ := t
    rw [List.cons_append, total_cons, total_cons, ih]
    omega

end Expr

namespace Compiler

variable {t u : Tables}

/-- A merged term counts as a term more. -/
theorem total_mergeTerm {c : Int} {name : String} {terms merged : List NamedTerm}
    (h : mergeTerm c name terms = .ok merged) (value : String → Int) :
    Expr.total value merged = Expr.total value terms + c * value name := by
  induction terms generalizing merged with
  | nil =>
    cases h
    simp
  | cons t terms ih =>
    obtain ⟨d, x⟩ := t
    rw [mergeTerm] at h
    split_ifs at h with hx
    · obtain ⟨e, he, h₁⟩ := Checked.bind_eq_ok.1 h
      cases h₁
      rw [Expr.total_cons, Expr.total_cons, (Word.fit_eq_ok_iff.1 he).2, hx, Int.add_mul]
      omega
    · obtain ⟨rest, hrest, h₁⟩ := Checked.bind_eq_ok.1 h
      cases h₁
      rw [Expr.total_cons, Expr.total_cons, ih hrest, Int.add_assoc]

/-- Merged terms count as the terms that they come from. -/
theorem total_mergeAll {merged terms all : List NamedTerm} (h : mergeAll merged terms = .ok all)
    (value : String → Int) :
    Expr.total value all = Expr.total value merged + Expr.total value terms := by
  induction terms generalizing merged with
  | nil =>
    cases h
    simp
  | cons t terms ih =>
    obtain ⟨c, x⟩ := t
    obtain ⟨merged', hmerged, h₁⟩ := Checked.bind_eq_ok.1 h
    rw [ih h₁, total_mergeTerm hmerged, Expr.total_cons, Int.add_assoc]

/-- Merged terms have the sum of the terms, and no coefficient is zero. -/
theorem total_mergeTerms {terms merged : List NamedTerm} (h : mergeTerms terms = .ok merged) :
    (∀ value, Expr.total value merged = Expr.total value terms) ∧ ∀ t ∈ merged, t.1 ≠ 0 := by
  obtain ⟨all, hall, h₁⟩ := Checked.bind_eq_ok.1 h
  cases h₁
  refine ⟨fun value => ?_, fun t ht => by simpa using (List.mem_filter.1 ht).2⟩
  rw [Expr.total_filter_ne_zero, total_mergeAll hall, Expr.total_nil, Int.zero_add]

/-! ### One variable -/

/-- Every comparison but an equation is an upper bound on a multiple, with the same truth. -/
theorem asAtMost_eq_ok {c c' rhs rhs' : Int} {op : Comparator} (hop : op ≠ .eq)
    (h : asAtMost c op rhs = .ok (c', rhs')) :
    (c ≠ 0 → c' ≠ 0) ∧ ∀ k, c' * k ≤ rhs' ↔ op.Holds (c * k) rhs := by
  -- Bounds from below change sides, and strict ones are by one less.
  cases op with
  | eq => exact absurd rfl hop
  | le =>
    cases h
    exact ⟨id, fun k => Iff.rfl⟩
  | lt =>
    obtain ⟨r, hr, h₁⟩ := Checked.bind_eq_ok.1 h
    cases h₁
    have hr' := (Word.fit_eq_ok_iff.1 hr).2
    refine ⟨id, fun k => ?_⟩
    simp only [Comparator.Holds]
    omega
  | ge =>
    obtain ⟨d, hd, h₁⟩ := Checked.bind_eq_ok.1 h
    obtain ⟨r, hr, h₂⟩ := Checked.bind_eq_ok.1 h₁
    cases h₂
    have hd' := (Word.fit_eq_ok_iff.1 hd).2
    have hr' := (Word.fit_eq_ok_iff.1 hr).2
    refine ⟨fun hc => by omega, fun k => ?_⟩
    simp only [Comparator.Holds, hd', Int.neg_mul]
    omega
  | gt =>
    obtain ⟨d, hd, h₁⟩ := Checked.bind_eq_ok.1 h
    obtain ⟨n, hn, h₂⟩ := Checked.bind_eq_ok.1 h₁
    obtain ⟨r, hr, h₃⟩ := Checked.bind_eq_ok.1 h₂
    cases h₃
    have hd' := (Word.fit_eq_ok_iff.1 hd).2
    have hn' := (Word.fit_eq_ok_iff.1 hn).2
    have hr' := (Word.fit_eq_ok_iff.1 hr).2
    refine ⟨fun hc => by omega, fun k => ?_⟩
    simp only [Comparator.Holds, hd', Int.neg_mul]
    omega

/-- The atom of `c·x ≤ rhs` compares the shown value with the rounded quotient. -/
theorem boundAtom_eq_ok {x : OrderVar} {n : Nat} (hx : x.WellFormed n) {c rhs : Int} (hc : c ≠ 0)
    {a : Atom} (h : boundAtom x c rhs = .ok a) :
    a.Below n ∧ ∀ v k, x.Shows v k → (a.eval v ↔ c * k ≤ rhs) := by
  unfold boundAtom at h
  split_ifs at h with hpos
  · obtain ⟨q, hq, h₁⟩ := Checked.bind_eq_ok.1 h
    cases h₁
    refine ⟨OrderVar.below_le hx q, fun v k hshow => ?_⟩
    rw [OrderVar.eval_le hx hshow, decide_eq_true_eq, Word.divFloor_eq_ok hq hpos,
      Int.le_ediv_iff_mul_le hpos, Int.mul_comm]
  · obtain ⟨q, hq, h₁⟩ := Checked.bind_eq_ok.1 h
    have hneg : c < 0 := by omega
    refine ⟨OrderVar.below_ge hx h₁, fun v k hshow => ?_⟩
    rw [OrderVar.eval_ge hx hshow h₁, decide_eq_true_eq, Word.divCeil_eq_ok hq hneg]
    -- Dividing by `c` is dividing by the positive `-c` and changing sides.
    have hflip := Int.le_ediv_iff_mul_le (a := -k) (b := rhs) (c := -c) (by omega)
    rw [Int.ediv_neg, Int.neg_mul_neg, Int.mul_comm] at hflip
    rw [← hflip]
    omega

theorem growing_termAtom (c : Int) (name : String) (op : Comparator) (rhs : Int) :
    Growing (termAtom c name op rhs) := by
  unfold termAtom
  split_ifs
  · refine (growing_checked _).bind fun r => ?_
    split_ifs
    · exact (growing_checked _).bind fun q => growing_equality name q
    · exact growing_pure _
  · exact (growing_checked _).bind fun _ => (growing_lookup name).bind fun _ => growing_checked _

/-- **Comparisons of one variable.** The atom is true exactly when the comparison is. -/
theorem termAtom_compiles {c : Int} {name : String} {op : Comparator} {rhs : Int} {a : Atom}
    (hc : c ≠ 0) (h : termAtom c name op rhs t = .ok a u) (ht : t.WellFormed)
    (hroom : u.cnf.next ≤ Lit.varLimit) :
    a.Below u.cnf.next ∧ ∀ value, Compiles value t u
      (fun v => a.eval v ↔ op.Holds (c * value name) rhs) (fun _ => True)
      fun w => a.eval w ↔ op.Holds (c * value name) rhs := by
  unfold termAtom at h
  split_ifs at h with hop
  · obtain ⟨r, t₁, hr, h₁⟩ := Step.bind_eq_ok.1 h
    obtain ⟨hrem, rfl⟩ := Step.checked_eq_ok.1 hr
    have hdvd : c ∣ rhs ↔ r = 0 := by rw [Word.rem_eq_ok hrem, Int.dvd_iff_tmod_eq_zero]
    split_ifs at h₁ with hzero
    · obtain ⟨q, t₂, hq, h₂⟩ := Step.bind_eq_ok.1 h₁
      obtain ⟨hdiv, rfl⟩ := Step.checked_eq_ok.1 hq
      obtain ⟨hbelow, hcomp⟩ := equality_compiles h₂ ht hroom
      have hiff : ∀ k : Int, k = q ↔ op.Holds (c * k) rhs := by
        intro k
        obtain ⟨m, rfl⟩ := hdvd.2 hzero
        rw [Word.div_eq_ok hdiv, Int.mul_tdiv_cancel_left _ hc, hop, Comparator.Holds,
          Int.mul_eq_mul_left_iff hc]
      refine ⟨hbelow, fun value => (hcomp value).mono ?_ (fun _ _ h => h) ?_⟩
      · exact fun v _ hv => hv.trans (hiff _)
      · exact fun v _ hv => hv.trans (hiff _)
    · -- A right-hand side that is no multiple is never reached.
      obtain ⟨rfl, rfl⟩ := Step.pure_eq_ok.1 h₁
      have hnever : ∀ k : Int, ¬ op.Holds (c * k) rhs := by
        intro k hk
        rw [hop] at hk
        exact hzero (hdvd.1 ⟨k, Eq.symm hk⟩)
      refine ⟨trivial, fun value => .refl ht ?_ ?_⟩
      · exact fun v _ _ => iff_of_false (by simp [Atom.eval]) (hnever _)
      · exact fun v _ _ _ => iff_of_false (by simp [Atom.eval]) (hnever _)
  · obtain ⟨⟨c', rhs'⟩, t₁, hr, h₁⟩ := Step.bind_eq_ok.1 h
    obtain ⟨hbound, rfl⟩ := Step.checked_eq_ok.1 hr
    obtain ⟨x, t₂, hx, h₂⟩ := Step.bind_eq_ok.1 h₁
    obtain ⟨hmem, rfl⟩ := lookup_eq_ok hx
    obtain ⟨hatom, rfl⟩ := Step.checked_eq_ok.1 h₂
    obtain ⟨hc', hiff⟩ := asAtMost_eq_ok hop hbound
    obtain ⟨hbelow, heval⟩ := boundAtom_eq_ok (ht.vars _ hmem) (hc' hc) hatom
    refine ⟨hbelow, fun value => .refl ht ?_ ?_⟩
    · exact fun v hshows _ => (heval v _ (hshows _ hmem)).trans (hiff _)
    · exact fun v hshows _ _ => (heval v _ (hshows _ hmem)).trans (hiff _)

/-! ### Several variables -/

/-- Scaled steps have the scaled sum, and the same variables. -/
theorem total_scale {c : Int} {steps scaled : List (Lit × Int)}
    (h : steps.mapM (fun (l, w) => do return (l, ← Word.mul c w)) = (.ok scaled : Checked _)) :
    (∀ v, PseudoBoolean.total v scaled = c * PseudoBoolean.total v steps) ∧
      ∀ n, (∀ p ∈ steps, p.1.var < n) → ∀ p ∈ scaled, p.1.var < n := by
  induction steps generalizing scaled with
  | nil =>
    cases h
    exact ⟨fun v => by simp, by simp⟩
  | cons p steps ih =>
    obtain ⟨l, w⟩ := p
    rw [List.mapM_cons] at h
    obtain ⟨q, hq, h₁⟩ := Checked.bind_eq_ok.1 h
    obtain ⟨rest, hrest, h₂⟩ := Checked.bind_eq_ok.1 h₁
    cases h₂
    obtain ⟨m, hm, h₃⟩ := Checked.bind_eq_ok.1 hq
    cases h₃
    obtain ⟨htot, hvars⟩ := ih hrest
    have hm' := (Word.fit_eq_ok_iff.1 hm).2
    refine ⟨fun v => ?_, fun n hn => ?_⟩
    · rw [PseudoBoolean.total_cons, PseudoBoolean.total_cons, htot v, Int.mul_add]
      split_ifs
      · rw [hm']
      · rw [Int.mul_zero]
    · obtain ⟨hl, hrest⟩ := List.forall_mem_cons.1 hn
      exact List.forall_mem_cons.2 ⟨hl, hvars n hrest⟩

/-- The literals and the constant add up to the sum of the shown values. -/
theorem weightedSum_eq_ok {terms : List NamedTerm} {offset offset' : Int}
    {lits : List (Lit × Int)} (h : weightedSum offset terms t = .ok (lits, offset') u)
    (ht : t.WellFormed) :
    u = t ∧ (∀ p ∈ lits, p.1.var < t.cnf.next) ∧ ∀ value v, t.Shows value v →
      PseudoBoolean.total v lits + offset' = offset + Expr.total value terms := by
  induction terms generalizing offset lits with
  | nil =>
    obtain ⟨⟨⟩, rfl⟩ := Step.pure_eq_ok.1 h
    exact ⟨rfl, by simp, fun value v _ => by simp⟩
  | cons term terms ih =>
    obtain ⟨c, name⟩ := term
    obtain ⟨x, t₁, hx, h₁⟩ := Step.bind_eq_ok.1 h
    obtain ⟨hmem, rfl⟩ := lookup_eq_ok hx
    obtain ⟨steps, t₂, hsteps, h₂⟩ := Step.bind_eq_ok.1 h₁
    obtain ⟨hsteps', rfl⟩ := Step.checked_eq_ok.1 hsteps
    obtain ⟨o, t₃, ho, h₃⟩ := Step.bind_eq_ok.1 h₂
    obtain ⟨ho', rfl⟩ := Step.checked_eq_ok.1 ho
    obtain ⟨scaled, t₄, hscaled, h₄⟩ := Step.bind_eq_ok.1 h₃
    obtain ⟨hscaled', rfl⟩ := Step.checked_eq_ok.1 hscaled
    obtain ⟨⟨others, o'⟩, t₅, hrest, h₅⟩ := Step.bind_eq_ok.1 h₄
    obtain ⟨⟨⟩, rfl⟩ := Step.pure_eq_ok.1 h₅
    obtain ⟨rfl, hvars, htot⟩ := ih hrest
    obtain ⟨m, hm, hadd⟩ := Checked.bind_eq_ok.1 ho'
    have hm' := (Word.fit_eq_ok_iff.1 hm).2
    have hadd' := (Word.fit_eq_ok_iff.1 hadd).2
    obtain ⟨hscale, hbelow⟩ := total_scale hscaled'
    have hwf : x.WellFormed _ := ht.vars _ hmem
    -- A variable is its least value, which goes to the constant, and the steps that it takes.
    refine ⟨rfl, List.forall_mem_append.2 ⟨?_, hvars⟩, fun value v hshows => ?_⟩
    · exact hbelow _ (OrderVar.below_steps hwf.below hsteps')
    · have hshow : x.lb + _ = value name := OrderVar.lb_add_total hwf (hshows _ hmem) hsteps'
      have hrest' := htot value v hshows
      rw [PseudoBoolean.total_append, hscale, Expr.total_cons, ← hshow, Int.mul_add]
      omega

theorem growing_weightedSum : ∀ (terms : List NamedTerm) (offset : Int),
    Growing (weightedSum offset terms)
  | [], _ => growing_pure _
  | (_, name) :: terms, _ => (growing_lookup name).bind fun _ => (growing_checked _).bind fun _ =>
      (growing_checked _).bind fun _ => (growing_checked _).bind fun _ =>
        (growing_weightedSum terms _).bind fun _ => growing_pure _

theorem growing_sum (terms : List NamedTerm) (op : Comparator) (rhs : Int) :
    Growing (sum terms op rhs) := by
  have hmost := fun lits bound => growing_emit (PseudoBoolean.growing_encodeAtMost lits bound)
  have hleast := fun lits bound => growing_emit (PseudoBoolean.growing_encodeAtLeast lits bound)
  refine (growing_weightedSum terms 0).bind fun _ => (growing_checked _).bind fun _ => ?_
  cases op with
  | le => exact hmost _ _
  | lt => exact (growing_checked _).bind fun _ => hmost _ _
  | ge => exact hleast _ _
  | gt => exact (growing_checked _).bind fun _ => hleast _ _
  | eq => exact (hmost _ _).bind fun _ => hleast _ _

/-- Clauses about the sum of some literals are about what the literals stand for. -/
theorem compiles_total {lits : List (Lit × Int)} {cnf : Cnf} {p : Int → Prop}
    (henc : Encodes t.cnf cnf (fun v => p (PseudoBoolean.total v lits))
      (fun v => p (PseudoBoolean.total v lits)) fun _ => True)
    (ht : t.WellFormed) {value : String → Int} {sum : Int}
    (hsum : ∀ v, t.Shows value v → PseudoBoolean.total v lits = sum) :
    Compiles value t { t with cnf := cnf } (fun _ => p sum) (fun _ => p sum) fun _ => True := by
  refine .of_encodes ht (henc.mono ?_ ?_ ?_)
  · intro v hv hshows
    rwa [hsum v hshows] at hv
  · rintro v ⟨hshows, hp⟩
    rwa [hsum v hshows]
  · exact fun _ _ => trivial

/-- The clauses of an encoded upper bound mean that bound. -/
theorem atMost_compiles {lits : List (Lit × Int)} {bound : Int} {x : Unit}
    (h : emit (PseudoBoolean.encodeAtMost lits bound) t = .ok x u) (ht : t.WellFormed)
    (hroom : u.cnf.next ≤ Lit.varLimit) (hin : ∀ p ∈ lits, p.1.var < t.cnf.next)
    {value : String → Int} {sum : Int}
    (hsum : ∀ v, t.Shows value v → PseudoBoolean.total v lits = sum) :
    Compiles value t u (fun _ => sum ≤ bound) (fun _ => sum ≤ bound) fun _ => True := by
  obtain ⟨cnf, henc, rfl⟩ := emit_eq_ok h
  exact compiles_total (p := (· ≤ bound)) (PseudoBoolean.encodeAtMost_encodes henc hroom hin) ht
    hsum

/-- The clauses of an encoded lower bound mean that bound. -/
theorem atLeast_compiles {lits : List (Lit × Int)} {bound : Int} {x : Unit}
    (h : emit (PseudoBoolean.encodeAtLeast lits bound) t = .ok x u) (ht : t.WellFormed)
    (hroom : u.cnf.next ≤ Lit.varLimit) (hin : ∀ p ∈ lits, p.1.var < t.cnf.next)
    {value : String → Int} {sum : Int}
    (hsum : ∀ v, t.Shows value v → PseudoBoolean.total v lits = sum) :
    Compiles value t u (fun _ => bound ≤ sum) (fun _ => bound ≤ sum) fun _ => True := by
  obtain ⟨cnf, henc, rfl⟩ := emit_eq_ok h
  exact compiles_total (p := (bound ≤ ·)) (PseudoBoolean.encodeAtLeast_encodes henc hroom hin) ht
    hsum

/-- Both bounds together are an equality. -/
theorem atMost_atLeast_compiles {lits : List (Lit × Int)} {bound : Int} {x y : Unit} {t₁ : Tables}
    (hmost : emit (PseudoBoolean.encodeAtMost lits bound) t = .ok x t₁)
    (hleast : emit (PseudoBoolean.encodeAtLeast lits bound) t₁ = .ok y u) (ht : t.WellFormed)
    (hroom : u.cnf.next ≤ Lit.varLimit) (hin : ∀ p ∈ lits, p.1.var < t.cnf.next)
    {value : String → Int} {sum : Int}
    (hsum : ∀ v, t.Shows value v → PseudoBoolean.total v lits = sum) :
    Compiles value t u (fun _ => sum = bound) (fun _ => sum = bound) fun _ => True := by
  have hg := (growing_emit (PseudoBoolean.growing_encodeAtMost _ _)).ok hmost
  have hg' := (growing_emit (PseudoBoolean.growing_encodeAtLeast _ _)).ok hleast
  have h₁ := atMost_compiles hmost ht (hg'.cnf.next_le.trans hroom) hin hsum
  have h₂ := atLeast_compiles hleast h₁.wellFormed hroom
    (fun p hp => (hin p hp).trans_le hg.cnf.next_le) fun v hshows => hsum v (hshows.of_grows hg)
  exact (h₁.demandBoth h₂).mono_const le_antisymm_iff.symm

/-- **Comparisons of sums.** -/
theorem sum_compiles {terms : List NamedTerm} {op : Comparator} {rhs : Int} {x : Unit}
    (h : sum terms op rhs t = .ok x u) (ht : t.WellFormed) (hroom : u.cnf.next ≤ Lit.varLimit)
    (value : String → Int) :
    Compiles value t u (fun _ => op.Holds (Expr.total value terms) rhs)
      (fun _ => op.Holds (Expr.total value terms) rhs) fun _ => True := by
  obtain ⟨⟨lits, offset⟩, t₁, hsum, h₁⟩ := Step.bind_eq_ok.1 h
  obtain ⟨rfl, hin, htot⟩ := weightedSum_eq_ok hsum ht
  obtain ⟨r, t₂, hr, h₂⟩ := Step.bind_eq_ok.1 h₁
  obtain ⟨hr', rfl⟩ := Step.checked_eq_ok.1 hr
  have hrhs := (Word.fit_eq_ok_iff.1 hr').2
  -- The constant part of the sum stands on the right-hand side.
  have htot' : ∀ v, t₁.Shows value v →
      PseudoBoolean.total v lits = Expr.total value terms - offset := by
    intro v hshows
    have := htot value v hshows
    omega
  cases op with
  | le =>
    refine (atMost_compiles h₂ ht hroom hin htot').mono_const ?_
    simp only [Comparator.Holds]
    omega
  | lt =>
    obtain ⟨r', t₃, hr₃, h₃⟩ := Step.bind_eq_ok.1 h₂
    obtain ⟨hr₃', rfl⟩ := Step.checked_eq_ok.1 hr₃
    have hstrict := (Word.fit_eq_ok_iff.1 hr₃').2
    refine (atMost_compiles h₃ ht hroom hin htot').mono_const ?_
    simp only [Comparator.Holds]
    omega
  | ge =>
    refine (atLeast_compiles h₂ ht hroom hin htot').mono_const ?_
    simp only [Comparator.Holds]
    omega
  | gt =>
    obtain ⟨r', t₃, hr₃, h₃⟩ := Step.bind_eq_ok.1 h₂
    obtain ⟨hr₃', rfl⟩ := Step.checked_eq_ok.1 hr₃
    have hstrict := (Word.fit_eq_ok_iff.1 hr₃').2
    refine (atLeast_compiles h₃ ht hroom hin htot').mono_const ?_
    simp only [Comparator.Holds]
    omega
  | eq =>
    obtain ⟨y, t₃, hmost, hleast⟩ := Step.bind_eq_ok.1 h₂
    refine (atMost_atLeast_compiles hmost hleast ht hroom hin htot').mono_const ?_
    simp only [Comparator.Holds]
    omega

/-! ### Comparisons in general -/

/-- The opposite comparison is the negation. -/
theorem holds_negate? {op op' : Comparator} (h : op.negate? = some op') (a b : Int) :
    op'.Holds a b ↔ ¬ op.Holds a b := by
  cases op <;> cases h <;> simp [Comparator.Holds]

/-- A negated atom has the opposite truth. -/
theorem eval_signed {v : Valuation} {a : Atom} (positive : Bool) {F : Prop} (h : a.eval v ↔ F) :
    (signed positive a).eval v ↔ (F ↔ positive = true) := by
  cases positive with
  | true => simpa [signed] using h
  | false => simp [signed, ← h]

theorem below_signed {n : Nat} {a : Atom} (positive : Bool) (h : a.Below n) :
    (signed positive a).Below n := by
  cases positive with
  | true => exact h
  | false => exact h.not

/-- The atom of a constant comparison has its truth. -/
theorem eval_constAtom (v : Valuation) (op : Comparator) (a b : Int) :
    (constAtom (op.holds a b)).eval v ↔ op.Holds a b := by
  unfold constAtom
  rw [← Comparator.holds_iff]
  cases op.holds a b <;> simp [Atom.eval]

theorem below_constAtom (n : Nat) (b : Bool) : (constAtom b).Below n := by
  cases b <;> trivial

theorem growing_misplaced (e : Expr) : Growing (misplaced e) :=
  (growing_checked _).bind fun _ => growing_fail _

theorem growing_nested (e : Expr) : Growing (nested e) :=
  (growing_checked _).bind fun _ => growing_fail _

/-- What has no place at the top is never compiled. -/
theorem misplaced_ne_ok (e : Expr) (x : Unit) : misplaced e t ≠ .ok x u := by
  intro h
  obtain ⟨text, t₁, -, hfail⟩ := Step.bind_eq_ok.1 h
  exact absurd hfail (by simp)

/-- What has no place inside a formula is never compiled. -/
theorem nested_ne_ok (e : Expr) (a : Atom) : nested e t ≠ .ok a u := by
  intro h
  obtain ⟨text, t₁, -, hfail⟩ := Step.bind_eq_ok.1 h
  exact absurd hfail (by simp)

theorem growing_comparison (terms : List NamedTerm) (op : Comparator) (rhs : Int)
    (positive : Bool) : Growing (comparison terms op rhs positive) := by
  refine (growing_checked _).bind fun merged => ?_
  split
  · exact growing_pure _
  · exact (growing_termAtom _ _ _ _).bind fun _ => growing_pure _
  · exact growing_nested _

theorem growing_demand (terms : List NamedTerm) (op : Comparator) (rhs : Int) (positive : Bool) :
    Growing (demand terms op rhs positive) := by
  refine (growing_checked _).bind fun merged => ?_
  split
  · exact growing_clause _
  · exact (growing_termAtom _ _ _ _).bind fun _ => growing_clause _
  · split_ifs
    · exact growing_sum _ _ _
    · split
      · exact growing_sum _ _ _
      · exact growing_misplaced _

/-- **Comparisons inside formulas.** The atom is true exactly when the comparison has the sign. -/
theorem comparison_compiles {terms : List NamedTerm} {op : Comparator} {rhs : Int}
    {positive : Bool} {a : Atom} (h : comparison terms op rhs positive t = .ok a u)
    (ht : t.WellFormed) (hroom : u.cnf.next ≤ Lit.varLimit) :
    a.Below u.cnf.next ∧ ∀ value, Compiles value t u
      (fun v => a.eval v ↔ (op.Holds (Expr.total value terms) rhs ↔ positive = true))
      (fun _ => True)
      fun w => a.eval w ↔ (op.Holds (Expr.total value terms) rhs ↔ positive = true) := by
  obtain ⟨merged, t₁, hm, h₁⟩ := Step.bind_eq_ok.1 h
  obtain ⟨hmerged, rfl⟩ := Step.checked_eq_ok.1 hm
  obtain ⟨htot, hne⟩ := total_mergeTerms hmerged
  -- No term leaves a constant and one term an atom; more terms have no atom.
  rcases merged with _ | ⟨⟨c, name⟩, _ | ⟨d, rest⟩⟩
  · obtain ⟨rfl, rfl⟩ := Step.pure_eq_ok.1 h₁
    refine ⟨below_signed positive (below_constAtom _ _), fun value => ?_⟩
    rw [← htot value]
    have heval := fun v => eval_signed positive (eval_constAtom v op 0 rhs)
    exact .refl ht (fun v _ _ => heval v) fun v _ _ _ => heval v
  · obtain ⟨b, t₂, hb, h₂⟩ := Step.bind_eq_ok.1 h₁
    obtain ⟨rfl, rfl⟩ := Step.pure_eq_ok.1 h₂
    obtain ⟨hbelow, hcomp⟩ := termAtom_compiles (hne (c, name) (by simp)) hb ht hroom
    refine ⟨below_signed positive hbelow, fun value => ?_⟩
    rw [← htot value, Expr.total_cons, Expr.total_nil, Int.add_zero]
    refine (hcomp value).mono ?_ (fun _ _ h => h) ?_
    · exact fun v _ hv => eval_signed positive hv
    · exact fun v _ hv => eval_signed positive hv
  · exact absurd h₁ (nested_ne_ok _ _)

/-- **Comparisons at the top.** -/
theorem demand_compiles {terms : List NamedTerm} {op : Comparator} {rhs : Int}
    {positive : Bool} {x : Unit} (h : demand terms op rhs positive t = .ok x u)
    (ht : t.WellFormed) (hroom : u.cnf.next ≤ Lit.varLimit) (value : String → Int) :
    Compiles value t u (fun _ => op.Holds (Expr.total value terms) rhs ↔ positive = true)
      (fun _ => op.Holds (Expr.total value terms) rhs ↔ positive = true) fun _ => True := by
  obtain ⟨merged, t₁, hm, h₁⟩ := Step.bind_eq_ok.1 h
  obtain ⟨hmerged, rfl⟩ := Step.checked_eq_ok.1 hm
  obtain ⟨htot, hne⟩ := total_mergeTerms hmerged
  rw [← htot value]
  -- No term leaves a constant, one term an atom, and more terms a sum.
  rcases merged with _ | ⟨⟨c, name⟩, _ | ⟨d, rest⟩⟩
  · have heval := fun v => eval_signed positive (eval_constAtom v op 0 rhs)
    refine (clause_compiles h₁ ht ?_ value).mono ?_ ?_ fun _ _ h => h
    · simpa using below_signed positive (below_constAtom _ _)
    · intro v _ hv
      simpa [heval v] using hv
    · intro v _ hv
      simpa [heval v] using hv
  · obtain ⟨b, t₂, hb, h₂⟩ := Step.bind_eq_ok.1 h₁
    have hle := ((growing_clause _).ok h₂).cnf.next_le
    obtain ⟨hbelow, hcomp⟩ := termAtom_compiles (hne (c, name) (by simp)) hb ht (hle.trans hroom)
    rw [Expr.total_cons, Expr.total_nil, Int.add_zero]
    have hwant : StableBelow t.cnf.next fun _ =>
        op.Holds (c * value name) rhs ↔ positive = true := fun _ _ _ hp => hp
    have h₂' := clause_compiles h₂ (hcomp value).wellFormed
      (by simpa using below_signed positive hbelow) value
    refine (((hcomp value).frame hwant).trans h₂' ?_ ?_).mono ?_ ?_ fun _ _ _ => trivial
    · rintro v ⟨hv, hF⟩
      exact ⟨_, by simp, (eval_signed positive hv).2 hF⟩
    · rintro v w hvw ⟨hv, hF⟩
      exact ⟨by rwa [hbelow.eval_eq hvw], hF⟩
    · rintro v _ ⟨hv, a, ha, heval⟩
      rw [List.mem_singleton.1 ha] at heval
      exact (eval_signed positive hv).1 heval
    · exact fun v _ hF => ⟨trivial, hF⟩
  · cases positive with
    | true => simpa using sum_compiles h₁ ht hroom value
    | false =>
      simp only [Bool.false_eq_true, ↓reduceIte] at h₁
      cases hneg : op.negate? with
      | some op' =>
        rw [hneg] at h₁
        refine (sum_compiles h₁ ht hroom value).mono_const ?_
        simp [holds_negate? hneg]
      | none =>
        rw [hneg] at h₁
        exact absurd h₁ (misplaced_ne_ok _ _)

end Compiler

end WeightedCsp

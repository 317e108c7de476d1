import Mathlib.Algebra.BigOperators.Ring.List
import Mathlib.Algebra.Order.BigOperators.Group.List
import Mathlib.Data.List.Nodup
import WeightedCsp.Proofs.Formulation.Entities

/-!
# Sums of penalties

A name that is declared as a weighted sum has the value of the sum (`IsSum`), and may have it if the
parts stay within their bounds (`Within.isSum`).  The objective is declared in two levels, the sums
of each price and their weighted sum (`allHold_objective`); together they are the weighted sum of
all penalties (`sum_byPrice`).
-/

namespace WeightedCsp.Formulation

variable {value : String → Int}

/-- The weighted sum of the values of the parts. -/
def summed (value : String → Int) (parts : List Summand) : Int :=
  (parts.map fun s => s.factor * value s.name).sum

/-- The factors are not negative, and the values lie between zero and the bounds. -/
def Within (value : String → Int) (parts : List Summand) : Prop :=
  ∀ s ∈ parts, 0 ≤ s.factor ∧ 0 ≤ value s.name ∧ value s.name ≤ s.bound

/-- The bound of a sum is the sum of the bounds, each with its factor. -/
theorem boundOf_eq_ok {parts : List Summand} {acc ub : Int} (h : boundOf acc parts = .ok ub) :
    ub = acc + (parts.map fun s => s.factor * s.bound).sum := by
  induction parts generalizing acc with
  | nil =>
    cases h
    simp
  | cons s parts ih =>
    rw [boundOf] at h
    obtain ⟨p, hp, h₁⟩ := Checked.bind_eq_ok.1 h
    obtain ⟨q, hq, h₂⟩ := Checked.bind_eq_ok.1 h₁
    have hp' := (Word.fit_eq_ok_iff.1 hp).2
    have hq' := (Word.fit_eq_ok_iff.1 hq).2
    rw [ih h₂, List.map_cons, List.sum_cons]
    omega

/-- With all factors negated, the sum is negated. -/
theorem opposites_eq_ok (value : String → Int) {parts : List Summand} {terms : List NamedTerm}
    (h : opposites parts = .ok terms) : Expr.total value terms = -summed value parts := by
  induction parts generalizing terms with
  | nil =>
    cases h
    simp [summed]
  | cons s parts ih =>
    obtain ⟨w, hw, h₁⟩ := Checked.bind_eq_ok.1 h
    obtain ⟨rest, hrest, h₂⟩ := Checked.bind_eq_ok.1 h₁
    cases h₂
    have hw' := (Word.fit_eq_ok_iff.1 hw).2
    rw [Expr.total_cons, ih hrest, hw', summed, summed, List.map_cons, List.sum_cons, Int.neg_mul]
    omega

/-- The greatest value of a weighted sum. -/
def greatest (parts : List Summand) : Int := (parts.map fun s => s.factor * s.bound).sum

/-- The name has the value of the weighted sum, in the range it is declared over. -/
def IsSum (value : String → Int) (name : String) (parts : List Summand) : Prop :=
  value name = summed value parts ∧ 0 ≤ value name ∧ value name ≤ greatest parts

/-- A sum is declared over its range, and defined by one equation. -/
theorem sumDefinition_eq_ok {name : String} {parts : List Summand} {exprs : List Expr}
    (h : sumDefinition name parts = .ok exprs) :
    ∃ terms, opposites parts = .ok terms ∧
      exprs = [Expr.intRange name 0 (greatest parts), .linear ((1, name) :: terms) .eq 0] := by
  obtain ⟨ub, hub, h₁⟩ := Checked.bind_eq_ok.1 h
  obtain ⟨terms, hterms, h₂⟩ := Checked.bind_eq_ok.1 h₁
  cases h₂
  rw [boundOf_eq_ok hub, Int.zero_add]
  exact ⟨terms, hterms, rfl⟩

/-- **Sums.** What is said of a sum is what makes it one. -/
theorem allHold_sumDefinition {name : String} {parts : List Summand} {exprs : List Expr}
    (h : sumDefinition name parts = .ok exprs) :
    Expr.AllHold value exprs ↔ IsSum value name parts := by
  obtain ⟨terms, hterms, rfl⟩ := sumDefinition_eq_ok h
  have htotal := opposites_eq_ok value hterms
  simp only [Expr.AllHold, Expr.holds_intRange, Expr.Holds, Comparator.Holds, Expr.total_cons,
    and_true, htotal, IsSum]
  omega

/-- The bound of a sum fits. -/
theorem boundOf_inRange {parts : List Summand} {acc ub : Int} (hacc : Word.InRange acc)
    (h : boundOf acc parts = .ok ub) : Word.InRange ub := by
  induction parts generalizing acc with
  | nil =>
    cases h
    exact hacc
  | cons s parts ih =>
    rw [boundOf] at h
    obtain ⟨p, -, h₁⟩ := Checked.bind_eq_ok.1 h
    obtain ⟨q, hq, h₂⟩ := Checked.bind_eq_ok.1 h₁
    obtain ⟨hrange, rfl⟩ := Word.fit_eq_ok_iff.1 hq
    exact ih hrange h₂

/-- What is declared as a sum fits a word. -/
theorem le_greatest_of_sumDefinition {name : String} {parts : List Summand} {exprs : List Expr}
    (h : sumDefinition name parts = .ok exprs) (hall : Expr.AllHold value exprs) :
    value name ≤ Word.greatest := by
  have hle := ((allHold_sumDefinition h).1 hall).2.2
  obtain ⟨ub, hub, -⟩ := Checked.bind_eq_ok.1 h
  have hrange := (boundOf_inRange (by decide) hub).2
  rw [boundOf_eq_ok hub, Int.zero_add] at hrange
  exact Int.le_trans hle hrange

/-- A sum of parts that stay within their bounds stays in its range. -/
theorem Within.isSum {name : String} {parts : List Summand} (h : Within value parts)
    (heq : value name = summed value parts) : IsSum value name parts := by
  refine ⟨heq, ?_⟩
  rw [heq, summed, greatest]
  clear heq
  induction parts with
  | nil => simp
  | cons s parts ih =>
    obtain ⟨⟨hfactor, hnonneg, hbound⟩, hrest⟩ := List.forall_mem_cons.1 h
    obtain ⟨h₀, h₁⟩ := ih hrest
    have hprod := Int.mul_nonneg hfactor hnonneg
    have hle := Int.mul_le_mul_of_nonneg_left hbound hfactor
    simp only [List.map_cons, List.sum_cons]
    omega

theorem word_sum_eq_ok {xs : List Int} {ub : Int} (h : Word.sum xs = .ok ub) : ub = xs.sum := by
  have hfrom : ∀ acc : Int, xs.foldlM Word.add acc = .ok ub → ub = acc + xs.sum := by
    clear h
    induction xs with
    | nil =>
      intro acc h
      cases h
      simp
    | cons x xs ih =>
      intro acc h
      rw [List.foldlM_cons] at h
      obtain ⟨y, hy, h₁⟩ := Checked.bind_eq_ok.1 h
      rw [ih y h₁, (Word.fit_eq_ok_iff.1 hy).2, List.sum_cons]
      omega
  rw [hfrom 0 h, Int.zero_add]

/-! ### Sums of penalties -/

/-- Penalties as summands with factor one. -/
def summands (ps : List Penalty) : List Summand := ps.map Penalty.summand

theorem summed_summands (ps : List Penalty) :
    summed value (summands ps) = (ps.map fun p => value p.name).sum := by
  simp [summed, summands, Penalty.summand, Function.comp_def]

theorem greatest_summands (ps : List Penalty) :
    greatest (summands ps) = (ps.map (·.bound)).sum := by
  simp [greatest, summands, Penalty.summand, Function.comp_def]

/-- The sum of the penalties of a price as a part of the objective. -/
def tierPart (ps : List Penalty) (price : Nat) : Summand :=
  ⟨price, Names.tier price, greatest (summands (ofPrice price ps))⟩

theorem tierSums_cons_eq_ok {ps : List Penalty} {w : Nat} {ws : List Nat} {exprs : List Expr}
    {parts : List Summand} (h : tierSums ps (w :: ws) = .ok (exprs, parts)) :
    ∃ own others rest, sumDefinition (Names.tier w) (summands (ofPrice w ps)) = .ok own ∧
      tierSums ps ws = .ok (others, rest) ∧ exprs = own ++ others ∧
      parts = tierPart ps w :: rest := by
  rw [tierSums] at h
  obtain ⟨ub, hub, h₁⟩ := Checked.bind_eq_ok.1 h
  obtain ⟨own, hown, h₂⟩ := Checked.bind_eq_ok.1 h₁
  obtain ⟨⟨others, rest⟩, hrest, h₃⟩ := Checked.bind_eq_ok.1 h₂
  cases h₃
  refine ⟨own, others, rest, hown, hrest, rfl, ?_⟩
  rw [word_sum_eq_ok hub, ← greatest_summands]
  rfl

/-- Each tier is a summand of the objective. -/
theorem tierSums_parts {ps : List Penalty} {ws : List Nat} {exprs : List Expr}
    {parts : List Summand} (h : tierSums ps ws = .ok (exprs, parts)) :
    parts = ws.map (tierPart ps) := by
  induction ws generalizing exprs parts with
  | nil =>
    cases h
    rfl
  | cons w ws ih =>
    obtain ⟨own, others, rest, -, hrest, -, rfl⟩ := tierSums_cons_eq_ok h
    rw [ih hrest, List.map_cons]

/-- What is said of tiers makes each of them a sum. -/
theorem allHold_tierSums {ps : List Penalty} {ws : List Nat} {exprs : List Expr}
    {parts : List Summand} (h : tierSums ps ws = .ok (exprs, parts)) :
    Expr.AllHold value exprs ↔
      ∀ w ∈ ws, IsSum value (Names.tier w) (summands (ofPrice w ps)) := by
  induction ws generalizing exprs parts with
  | nil =>
    cases h
    simp [Expr.AllHold]
  | cons w ws ih =>
    obtain ⟨own, others, rest, hown, hrest, rfl, -⟩ := tierSums_cons_eq_ok h
    rw [Expr.allHold_append, ih hrest, allHold_sumDefinition hown, List.forall_mem_cons]

/-- The objective is the sum of the tiers, and these are sums of penalties. -/
theorem objective_eq_ok {f : Formulation} {exprs : List Expr} (h : f.objective = .ok exprs) :
    ∃ tiers last, tierSums f.penalties (prices f.penalties) =
        .ok (tiers, (prices f.penalties).map (tierPart f.penalties)) ∧
      sumDefinition Names.objective ((prices f.penalties).map (tierPart f.penalties)) = .ok last ∧
      exprs = tiers ++ last := by
  unfold objective at h
  split_ifs at h
  obtain ⟨⟨tiers, parts⟩, htiers, h₁⟩ := Checked.bind_eq_ok.1 h
  obtain ⟨last, hlast, h₂⟩ := Checked.bind_eq_ok.1 h₁
  cases h₂
  have htiers' := Checked.lift_eq_ok.1 htiers
  obtain rfl := tierSums_parts htiers'
  exact ⟨tiers, last, htiers', Checked.lift_eq_ok.1 hlast, rfl⟩

/-- **The objective.** It is declared as the weighted sum of the sums of each price. -/
theorem allHold_objective {f : Formulation} {exprs : List Expr} (h : f.objective = .ok exprs) :
    Expr.AllHold value exprs ↔
      (∀ w ∈ prices f.penalties,
        IsSum value (Names.tier w) (summands (ofPrice w f.penalties))) ∧
      IsSum value Names.objective ((prices f.penalties).map (tierPart f.penalties)) := by
  obtain ⟨tiers, last, htiers, hlast, rfl⟩ := objective_eq_ok h
  rw [Expr.allHold_append, allHold_tierSums htiers, allHold_sumDefinition hlast]

/-- The objective fits. -/
theorem objective_le_greatest {f : Formulation} {exprs : List Expr} (h : f.objective = .ok exprs)
    (hall : Expr.AllHold value exprs) : value Names.objective ≤ Word.greatest := by
  obtain ⟨tiers, last, -, hlast, rfl⟩ := objective_eq_ok h
  exact le_greatest_of_sumDefinition hlast (Expr.allHold_append.1 hall).2

/-! ### Price by price -/

/-- The prices are those of the penalties. -/
theorem mem_prices {ps : List Penalty} {w : Nat} : w ∈ prices ps ↔ ∃ p ∈ ps, p.price = w := by
  simp only [prices, List.mem_map, Ascending.mem_ofList]
  constructor
  · rintro ⟨k, ⟨p, hp, rfl⟩, rfl⟩
    exact ⟨p, hp, by simp⟩
  · rintro ⟨p, hp, rfl⟩
    exact ⟨p.price, ⟨p, hp, rfl⟩, by simp⟩

theorem nodup_prices (ps : List Penalty) : (prices ps).Nodup := by
  unfold prices
  refine List.Nodup.map_on ?_ ((Ascending.pairwise_ofList _).imp fun h => Int.ne_of_lt h)
  intro a ha b hb hab
  rw [Ascending.mem_ofList] at ha hb
  obtain ⟨p, -, rfl⟩ := List.mem_map.1 ha
  obtain ⟨q, -, rfl⟩ := List.mem_map.1 hb
  simpa using hab

/-- A sum over different keys has one summand for each of them. -/
theorem sum_map_ite_eq {ws : List Nat} (hnodup : ws.Nodup) {w : Nat} (hw : w ∈ ws) (x : Int) :
    (ws.map fun v => if v = w then x else 0).sum = x := by
  induction ws with
  | nil => cases hw
  | cons v ws ih =>
    obtain ⟨hv, hrest⟩ := List.nodup_cons.1 hnodup
    rw [List.map_cons, List.sum_cons]
    by_cases hvw : v = w
    · have hzero : (ws.map fun u => if u = w then x else 0).sum = 0 := by
        refine List.sum_eq_zero fun y hy => ?_
        obtain ⟨u, hu, rfl⟩ := List.mem_map.1 hy
        rw [if_neg]
        rintro rfl
        exact hv (hvw ▸ hu)
      rw [if_pos hvw, hzero, Int.add_zero]
    · rw [if_neg hvw, ih hrest ((List.mem_cons.1 hw).resolve_left (Ne.symm hvw)), Int.zero_add]

/-- **Price by price.** Summing the members of each price, and these sums with the prices, is
summing with the prices at once. -/
theorem sum_byPrice {α : Type} {price : α → Nat} {amount : α → Int} {ws : List Nat}
    (hnodup : ws.Nodup) {ps : List α} (hall : ∀ p ∈ ps, price p ∈ ws) :
    (ws.map fun w : Nat => (w : Int) * ((ps.filter (price · = w)).map amount).sum).sum =
      (ps.map fun p => (price p : Int) * amount p).sum := by
  induction ps with
  | nil => simp
  | cons p ps ih =>
    obtain ⟨hp, hrest⟩ := List.forall_mem_cons.1 hall
    -- Only the price of `p` sees one more member.
    have hstep : ∀ w : Nat, (w : Int) * (((p :: ps).filter (price · = w)).map amount).sum =
        (if w = price p then (price p : Int) * amount p else 0) +
          (w : Int) * ((ps.filter (price · = w)).map amount).sum := by
      intro w
      by_cases hw : price p = w
      · simp [hw, Int.mul_add]
      · simp [hw, Ne.symm hw]
    rw [List.map_cons, List.sum_cons, ← ih hrest, List.map_congr_left fun w _ => hstep w,
      List.sum_map_add, sum_map_ite_eq hnodup hp]

end WeightedCsp.Formulation

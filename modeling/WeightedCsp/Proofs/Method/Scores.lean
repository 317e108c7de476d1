import WeightedCsp.Proofs.Method.Report

/-!
# Reports and scores

A model scores an assignment, and a report groups the violations of a solution anew.  Both go
through the same violations, in different ways: the score stops with an error where the weighted sum
leaves the machine range, and the report leaves the objective out.  Where a report is given, the two
agree, and its totals are those of the tiers (`Report.new_agrees`).

A report is not always given.  The totals are added up without a way out, so one that does not fit
is a fault, also where nothing is charged for it.  A report is given exactly if all totals fit
(`Report.new_settles`).
-/

namespace WeightedCsp

/-! ### Evaluation -/

/-- A violation is never negative. -/
theorem Comparator.violation?_nonneg {op : Comparator} {lhs rhs n : Int}
    (h : op.violation? lhs rhs = some n) : 0 ≤ n := by
  cases op with
  | eq =>
    obtain ⟨d, -, habs⟩ := Option.bind_eq_some_iff.1 h
    rw [(Word.fit?_eq_some_iff.1 habs).2]
    exact Int.natCast_nonneg _
  | le | lt | ge | gt =>
    obtain ⟨-, -, rfl⟩ := excess?_eq_some_iff.1 h
    exact Int.le_max_right _ _

namespace Constraint

/-- The violation under an assignment, or zero if there is none. -/
def amountUnder (a : Assignment) (c : Constraint) : Int := (c.violation a).toOption.getD 0

theorem orOverflow_eq_ok {name : String} {x : Option Int} {n : Int} :
    orOverflow name x = .ok n ↔ x = some n := by
  cases x <;> simp [orOverflow]

/-- No violation is negative, whatever the values are. -/
theorem violation_nonneg {c : Constraint} {a : Assignment} {n : Int} (h : c.violation a = .ok n) :
    0 ≤ n := by
  obtain ⟨name, weight, body⟩ := c
  cases body with
  | linear | pseudoBoolean =>
    obtain ⟨lhs, -, hmissed⟩ := Checked.bind_eq_ok.1 h
    exact Comparator.violation?_nonneg (orOverflow_eq_ok.1 hmissed)
  | conflict terms =>
    obtain ⟨all, -, hn⟩ := Checked.bind_eq_ok.1 h
    cases hn
    split_ifs <;> decide
  | allDifferent vars =>
    obtain ⟨values, -, hn⟩ := Checked.bind_eq_ok.1 h
    cases hn
    exact Int.natCast_nonneg _

/-- So no constraint charges a negative amount. -/
theorem amountUnder_nonneg (a : Assignment) (c : Constraint) : 0 ≤ c.amountUnder a := by
  unfold amountUnder
  cases h : c.violation a with
  | ok n => exact violation_nonneg h
  | error e => exact Int.le_refl 0

theorem amountUnder_eq {c : Constraint} {a : Assignment} {n : Int} (h : c.violation a = .ok n) :
    c.amountUnder a = n := by
  rw [amountUnder, h]
  rfl

end Constraint

namespace Model

variable {m : Model} {a : Assignment} {vs : List Violation}

/-- Violations are computed if each of them is. -/
theorem mapM_violation_eq_ok {cs : List Constraint}
    (h : (cs.mapM fun c => do return (⟨c.name, c.weight, ← c.violation a⟩ : Violation)) = .ok vs) :
    (∀ c ∈ cs, c.violation a = .ok (c.amountUnder a)) ∧
      vs = cs.map (·.chargedBy (·.amountUnder a)) := by
  induction cs generalizing vs with
  | nil =>
    cases h
    exact ⟨List.forall_mem_nil _, rfl⟩
  | cons c cs ih =>
    rw [List.mapM_cons] at h
    obtain ⟨v, hv, h₁⟩ := Checked.bind_eq_ok.1 h
    obtain ⟨rest, hrest, h₂⟩ := Checked.bind_eq_ok.1 h₁
    obtain ⟨n, hn, h₃⟩ := Checked.bind_eq_ok.1 hv
    cases h₂
    cases h₃
    obtain ⟨hall, rfl⟩ := ih hrest
    have hc := Constraint.amountUnder_eq hn
    refine ⟨List.forall_mem_cons.2 ⟨by rw [hc, hn], hall⟩, ?_⟩
    rw [List.map_cons, Constraint.chargedBy, hc]

/-- **Evaluation.** An assignment that can be evaluated violates every constraint by its amount. -/
theorem evaluate_eq_ok (h : m.evaluate a = .ok vs) :
    (∀ c ∈ m.constraints, c.violation a = .ok (c.amountUnder a)) ∧
      vs = m.constraints.map (·.chargedBy (·.amountUnder a)) :=
  mapM_violation_eq_ok h

/-- A weighted sum is given up where the price of the violations is an error, and nowhere else. -/
theorem priceOf_cases (acc : Int) (vs : List Violation) :
    (∃ n, Report.objective? acc vs = some n ∧ priceOf acc vs = .ok n) ∨
      Report.objective? acc vs = none ∧ ∃ name, priceOf acc vs = .error (.overflow name) := by
  induction vs generalizing acc with
  | nil => exact .inl ⟨acc, rfl, rfl⟩
  | cons v vs ih =>
    obtain ⟨name, weight, amount⟩ := v
    cases weight with
    | hard => exact ih acc
    | soft w =>
      have hprice : priceOf acc (⟨name, .soft w, amount⟩ :: vs) =
          orOverflow name (do Word.add? acc (← Word.mul? w amount)) >>= fun acc =>
            priceOf acc vs := rfl
      rw [Report.objective?_cons_soft, hprice]
      cases (do Word.add? acc (← Word.mul? w amount) : Option Int) with
      | none => exact .inr ⟨rfl, name, rfl⟩
      | some next => exact ih next

end Model

/-- Tiers come about by constraints of their price. -/
theorem Tier.mem_prices_foldl {price : Nat} {cs : List Constraint} {ts : List Tier}
    (h : price ∈ (cs.foldl Tier.add ts).map (·.price)) :
    price ∈ ts.map (·.price) ∨ ∃ c ∈ cs, c.weight = .soft price := by
  induction cs generalizing ts with
  | nil => exact .inl h
  | cons c cs ih =>
    rcases ih h with hmem | ⟨d, hd, hweight⟩
    · cases hweight : c.weight with
      | hard =>
        rw [Tier.add_hard hweight] at hmem
        exact .inl hmem
      | soft w =>
        rw [Tier.add_soft hweight] at hmem
        rcases Tier.mem_prices_insert.1 hmem with rfl | hmem
        · exact .inr ⟨c, List.mem_cons_self, hweight⟩
        · exact .inl hmem
    · exact .inr ⟨d, List.mem_cons_of_mem _ hd, hweight⟩

/-- A price belongs to a tier if some constraint has it. -/
theorem Model.price_mem_tiers_iff {m : Model} {price : Nat} :
    price ∈ m.tiers.map (·.price) ↔ ∃ c ∈ m.constraints, c.weight = .soft price := by
  constructor
  · intro h
    rw [tiers, Tier.ofConstraints_eq_foldl] at h
    exact (Tier.mem_prices_foldl h).resolve_left List.not_mem_nil
  · rintro ⟨c, hc, hweight⟩
    exact price_mem_tiers hc hweight

/-! ### Groupings of violations -/

namespace Report

variable {m : Model} {amount : Constraint → Int}

/-- The total of the violations of a price. -/
def totalOf (price : Nat) (vs : List Violation) : Int :=
  ((vs.filter fun v => v.weight = .soft price).map (·.amount)).sum

/-- The weighted sum of violations; hard ones cost nothing. -/
def costOf (vs : List Violation) : Int := (vs.map fun v => (v.weight.price : Int) * v.amount).sum

theorem filter_chargedBy (p : Weight → Bool) (cs : List Constraint) :
    (cs.map (·.chargedBy amount)).filter (fun v => p v.weight) =
      (cs.filter fun c => p c.weight).map (·.chargedBy amount) := by
  rw [List.filter_map]
  rfl

/-- The total of a price is the sum of what its constraints charge. -/
theorem totalOf_chargedBy (price : Nat) (cs : List Constraint) :
    totalOf price (cs.map (·.chargedBy amount)) =
      ((cs.filter fun c => c.weight = .soft price).map amount).sum := by
  rw [totalOf, filter_chargedBy (fun w => w = .soft price), List.map_map]
  rfl

/-- Hard constraints have no part in totals. -/
theorem totalOf_soft (price : Nat) (vs : List Violation) :
    totalOf price (vs.filter fun v => !v.weight.isHard) = totalOf price vs := by
  have hfilter : (vs.filter fun v => !v.weight.isHard).filter (fun v => v.weight = .soft price) =
      vs.filter fun v => v.weight = .soft price := by
    rw [List.filter_filter]
    refine List.filter_congr fun v _ => ?_
    cases v.weight <;> simp [Weight.isHard]
  rw [totalOf, hfilter, totalOf]

theorem costOf_chargedBy (cs : List Constraint) :
    costOf (cs.map (·.chargedBy amount)) = weighted amount cs := by
  induction cs with
  | nil => rfl
  | cons c cs ih =>
    have hcons : costOf ((c :: cs).map (·.chargedBy amount)) =
        (c.weight.price : Int) * amount c + costOf (cs.map (·.chargedBy amount)) := by
      simp [costOf, Constraint.chargedBy]
    rw [hcons, ih]
    cases hweight : c.weight with
    | hard => simp [weighted_cons_hard hweight, Weight.price]
    | soft w => rw [weighted_cons_soft hweight, Weight.price]

theorem hardCount_chargedBy (m : Model) :
    Model.hardCount (m.constraints.map (·.chargedBy amount)) =
      (m.hardConstraints.filter fun c => 0 < amount c).length := by
  rw [Model.hardCount, Model.hardConstraints, List.filter_map, List.length_map, List.filter_filter]
  refine congrArg List.length (List.filter_congr fun c _ => ?_)
  exact Bool.and_comm _ _

/-- The total of a tier is the total of its price. -/
theorem total_eq_totalOf {t : Tier} (ht : t ∈ m.tiers) :
    t.total amount = totalOf t.price (m.constraints.map (·.chargedBy amount)) := by
  rw [totalOf_chargedBy, Tier.total, Model.members_tiers ht]
  rfl

/-- The totals of the tiers fit if those of all prices do: a price without a tier has none. -/
theorem totalsFit_iff : Tier.TotalsFit amount m.tiers ↔
    ∀ price, Word.InRange (totalOf price (m.constraints.map (·.chargedBy amount))) := by
  constructor
  · intro h price
    by_cases hprice : price ∈ m.tiers.map (·.price)
    · obtain ⟨t, ht, rfl⟩ := List.mem_map.1 hprice
      rw [← total_eq_totalOf ht]
      exact h t ht
    · have hnone : (m.constraints.filter fun c => c.weight = .soft price) = [] := by
        refine List.filter_eq_nil_iff.2 fun c hc hweight => hprice ?_
        exact Model.price_mem_tiers hc (of_decide_eq_true hweight)
      rw [totalOf_chargedBy, hnone, List.map_nil, List.sum_nil]
      decide
  · intro h t ht
    rw [total_eq_totalOf ht]
    exact h t.price

/-! ### Reports on solutions that can be evaluated -/

variable {method : String} {status : Phase} {s : Solution} {solves elapsed : Nat} {r : Report}
  {vs : List Violation}

/-- The objective is the weighted sum of the violations, if that fits. -/
theorem objective?_eq_costOf {a : Assignment} (h : m.evaluate a = .ok vs) :
    objective? 0 vs = Word.fit? (costOf vs) := by
  have hobjective := objective?_eq_fit? (fun c => c.amountUnder_nonneg a) m.constraints
    (Int.le_refl 0) (by decide)
  rwa [Int.zero_add, ← costOf_chargedBy, ← (Model.evaluate_eq_ok h).2] at hobjective

/-- **Scores.** The objective is the score, and where there is none the score overflows. -/
theorem objective?_iff_score {a : Assignment} (h : m.evaluate a = .ok vs) :
    (∀ n, objective? 0 vs = some n ↔ m.score a = .ok (n, Model.hardCount vs)) ∧
      (objective? 0 vs = none ↔ ∃ name, m.score a = .error (.overflow name)) := by
  have hscore : m.score a = Model.priceOf 0 vs >>= fun n => pure (n, Model.hardCount vs) := by
    unfold Model.score
    rw [h]
    rfl
  rw [hscore]
  rcases Model.priceOf_cases 0 vs with ⟨k, hobjective, hprice⟩ | ⟨hobjective, name, hprice⟩
  · simp [hobjective, hprice]
  · simp [hobjective, hprice]

/-- What a report on violations holds. -/
theorem new_eq_ok_iff (h : m.evaluate s.get? = .ok vs) :
    new method m status (some s) solves elapsed = .ok r ↔
      Tier.TotalsFit (·.amountUnder s.get?) m.tiers ∧
      r = ⟨method, status, assignmentOf m s, vs.filter fun v => !v.weight.isHard,
        Model.hardCount vs, m.tiers.map (Tier.entry (·.amountUnder s.get?)), objective? 0 vs,
        solves, elapsed⟩ := by
  have hnew : new method m status (some s) solves elapsed = (do
      let totals ← tierTotals [] vs
      return ⟨method, status, assignmentOf m s, vs.filter fun v => !v.weight.isHard,
        Model.hardCount vs, totals, objective? 0 vs, solves, elapsed⟩) := by
    unfold new
    simp only [h]
  -- Only the totals can fail: the violations are already there.
  have htotals : ∀ totals, tierTotals [] vs = .ok totals ↔
      Tier.TotalsFit (·.amountUnder s.get?) m.tiers ∧
        totals = m.tiers.map (Tier.entry (·.amountUnder s.get?)) := by
    intro totals
    rw [(Model.evaluate_eq_ok h).2]
    exact tierTotals_eq_ok_iff (fun c => c.amountUnder_nonneg s.get?) m
  rw [hnew, Checked.bind_eq_ok]
  constructor
  · rintro ⟨totals, hrun, ⟨⟩⟩
    obtain ⟨hfit, rfl⟩ := (htotals totals).1 hrun
    exact ⟨hfit, rfl⟩
  · rintro ⟨hfit, rfl⟩
    exact ⟨_, (htotals _).2 ⟨hfit, rfl⟩, rfl⟩

/-- A report groups the violations of an assignment as the model does, and charges what the model
charges. -/
structure Agrees (m : Model) (a : Assignment) (r : Report) : Prop where
  /-- Every constraint has a violation, by its amount. -/
  evaluated : ∀ c ∈ m.constraints, c.violation a = .ok (c.amountUnder a)
  /-- The hard constraints are counted that are violated. -/
  hard : r.hardViolations = (m.hardConstraints.filter fun c => 0 < c.amountUnder a).length
  /-- The soft constraints are listed in the order of the model. -/
  soft : r.violations = m.softConstraints.map fun c => ⟨c.name, c.weight, c.amountUnder a⟩
  /-- The totals go with the tiers of the model. -/
  tiers : r.tiers = m.tiers.map fun t => (t.price, (t.members.map (·.amountUnder a)).sum)
  /-- The prices fall. -/
  falling : (r.tiers.map (·.1)).Pairwise (· > ·)
  /-- There is a total for each price of a soft constraint. -/
  prices : ∀ price, price ∈ r.tiers.map (·.1) ↔ ∃ c ∈ m.constraints, c.weight = .soft price
  /-- A total is the sum of the violations of its price. -/
  totals : ∀ e ∈ r.tiers, e.2 = totalOf e.1 r.violations
  /-- The objective is the score. -/
  score : ∀ n, r.objective = some n ↔ m.score a = .ok (n, r.hardViolations)
  /-- There is no objective exactly where the score overflows. -/
  overflow : r.objective = none ↔ ∃ name, m.score a = .error (.overflow name)
  /-- The objective is the weighted sum of the totals. -/
  objective : ∀ n, r.objective = some n → n = (r.tiers.map fun e => (e.1 : Int) * e.2).sum

/-- **Agreement.** A report on a solution that can be evaluated agrees with the model. -/
theorem new_agrees (hvs : m.evaluate s.get? = .ok vs)
    (hr : new method m status (some s) solves elapsed = .ok r) : r.Agrees m s.get? := by
  obtain ⟨hall, hcharged⟩ := Model.evaluate_eq_ok hvs
  obtain ⟨-, rfl⟩ := (new_eq_ok_iff hvs).1 hr
  have hprices : (m.tiers.map (Tier.entry (·.amountUnder s.get?))).map (·.1) =
      m.tiers.map (·.price) := by
    rw [List.map_map]
    rfl
  have hsoft : vs.filter (fun v => !v.weight.isHard) =
      m.softConstraints.map (·.chargedBy (·.amountUnder s.get?)) := by
    rw [hcharged, filter_chargedBy (fun w => !w.isHard)]
    rfl
  refine ⟨hall, ?_, hsoft, rfl, ?_, fun price => ?_, fun e he => ?_,
    (objective?_iff_score hvs).1, (objective?_iff_score hvs).2, fun n hn => ?_⟩
  · rw [hcharged]
    exact hardCount_chargedBy m
  · rw [hprices]
    exact m.falling_tiers
  · rw [hprices]
    exact Model.price_mem_tiers_iff
  · obtain ⟨t, ht, rfl⟩ := List.mem_map.1 he
    show t.total _ = totalOf t.price (vs.filter fun v => !v.weight.isHard)
    rw [totalOf_soft, hcharged, total_eq_totalOf ht]
  · have hcost : n = costOf vs :=
      (Word.fit?_eq_some_iff.1 ((objective?_eq_costOf hvs).symm.trans hn)).2
    rw [hcost, hcharged, costOf_chargedBy, ← Model.sum_tiers, List.map_map]
    rfl

/-- Values that violate a hard and a soft constraint. -/
theorem new_agrees_sample : ∃ r,
    new "linear" Model.Sample.model .timeout (some [("x", 2), ("y", 1)]) 1 0 = .ok r ∧
      r.Agrees Model.Sample.model (NameMap.get? [("x", 2), ("y", 1)]) ∧ r.hardViolations = 1 ∧
      r.tiers = [(3, 2), (1, 0)] ∧ r.objective = some 6 :=
  ⟨_, rfl, new_agrees rfl rfl, rfl, rfl, rfl⟩

/-- **Totals decide.** A report is given exactly if the total violation of every price fits.  The
weighted sum of a report that is given is left out if it does not fit, and is exact if it does. -/
theorem new_settles (method : String) (m : Model) (status : Phase) (best : Option Solution)
    (solves elapsed : Nat) :
    ((∃ r, new method m status best solves elapsed = .ok r) ↔
      ∀ s vs, best = some s → m.evaluate s.get? = .ok vs →
        ∀ price, Word.InRange (totalOf price vs)) ∧
    ∀ r s vs, new method m status best solves elapsed = .ok r → best = some s →
      m.evaluate s.get? = .ok vs → r.objective = Word.fit? (costOf vs) := by
  cases best with
  | none =>
    refine ⟨⟨fun _ s vs hs => ?_, fun _ => ⟨_, rfl⟩⟩, fun r s vs _ hs => ?_⟩
    · cases hs
    · cases hs
  | some s =>
    cases heval : m.evaluate s.get? with
    | error e =>
      -- A solution that cannot be evaluated is reported without violations.
      have hbare : ∃ r, new method m status (some s) solves elapsed = .ok r := by
        unfold new
        simp only [heval]
        exact ⟨_, rfl⟩
      refine ⟨⟨fun _ s' vs hs hvs => ?_, fun _ => hbare⟩, fun r s' vs _ hs hvs => ?_⟩
      · cases hs
        rw [heval] at hvs
        cases hvs
      · cases hs
        rw [heval] at hvs
        cases hvs
    | ok us =>
      have hcharged := (Model.evaluate_eq_ok heval).2
      refine ⟨⟨?_, fun h => ?_⟩, fun r s' vs hr hs hvs => ?_⟩
      · rintro ⟨r, hr⟩ s' vs ⟨⟩ hvs
        cases heval.symm.trans hvs
        have hfit := totalsFit_iff.1 ((new_eq_ok_iff heval).1 hr).1
        rwa [← hcharged] at hfit
      · have hfit := h s us rfl heval
        rw [hcharged] at hfit
        exact ⟨_, (new_eq_ok_iff heval).2 ⟨totalsFit_iff.2 hfit, rfl⟩⟩
      · cases hs
        cases heval.symm.trans hvs
        obtain ⟨-, rfl⟩ := (new_eq_ok_iff heval).1 hr
        exact objective?_eq_costOf heval

/-- No report is given on three violations whose total does not fit. -/
theorem new_overflows : Model.Sample.steep.Built ∧
    new "local-search" Model.Sample.steep .feasible (some [("y", 1)]) 1 0 = .error .add :=
  ⟨Model.Sample.built_steep, rfl⟩

end Report

end WeightedCsp

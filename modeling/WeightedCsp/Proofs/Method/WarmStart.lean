import WeightedCsp.Proofs.Decimal
import WeightedCsp.Proofs.Method.Moves
import WeightedCsp.Proofs.Method.Tiers

/-!
# Warm starts from truthful logs

A log tells the truth about an assignment (`SolverLog.Truthful`) if it shows no hard penalty, the
decimal form of every value, and exactly the violated constraints with the amounts of their
violation.  Such a log gives a warm start that pins every variable to its value and bounds the
heaviest tier by its total (`WarmStart.ofLog_of_truthful`), unless the total exceeds the machine
range.

The amounts are those of the constraints, while the first question is about the expressions that the
constraints are formulated by.  The two agree at the extension of the assignment to the auxiliary
variables: it satisfies what is said, it has the pinned values, and the sum of the heaviest tier is
the total.  So the first question of the search is answered and not refused (`runs_askWarm`), and it
is not asked again without the warm start.
-/

namespace WeightedCsp

/-- Numbers that are not negative can be added up if their sum fits. -/
theorem word_sum_of_nonneg {xs : List Int} (hxs : ∀ x ∈ xs, 0 ≤ x) (h : Word.InRange xs.sum) :
    Word.sum xs = .ok xs.sum := by
  -- The partial sums never pass the whole sum, so it is enough that the whole sum fits.
  have hfrom : ∀ acc : Int, 0 ≤ acc → acc + xs.sum ≤ Word.greatest →
      xs.foldlM Word.add acc = .ok (acc + xs.sum) := by
    clear h
    induction xs with
    | nil =>
      intro acc _ _
      rw [List.sum_nil, Int.add_zero]
      rfl
    | cons x xs ih =>
      obtain ⟨hx, hrest⟩ := List.forall_mem_cons.1 hxs
      intro acc hacc hle
      rw [List.sum_cons] at hle ⊢
      have hnonneg : 0 ≤ xs.sum := List.sum_nonneg hrest
      have hfits : Word.InRange (acc + x) := by
        unfold Word.InRange Word.least
        omega
      rw [List.foldlM_cons, show Word.add acc x = .ok (acc + x) from
        Word.fit_eq_ok_iff.2 ⟨hfits, rfl⟩]
      show xs.foldlM Word.add (acc + x) = _
      rw [ih hrest (acc + x) (by omega) (by omega), Int.add_assoc]
  have hsum := hfrom 0 (Int.le_refl 0) (by rw [Int.zero_add]; exact h.2)
  rwa [Int.zero_add] at hsum

/-- Where something is soft, there is a heaviest tier. -/
theorem Model.exists_heaviest {m : Model} (h : m.softConstraints ≠ []) :
    ∃ t, m.tiers.head? = some t := by
  obtain ⟨c, hc⟩ := List.exists_mem_of_ne_nil _ h
  obtain ⟨hmem, price, hweight⟩ := Model.mem_softConstraints.1 hc
  cases htiers : m.tiers with
  | nil =>
    have hprice := Model.price_mem_tiers hmem hweight
    rw [htiers] at hprice
    cases hprice
  | cons t ts => exact ⟨t, rfl⟩

/-! ### Truthful logs -/

/-- The log tells the truth about an assignment that violates no hard constraint. -/
structure SolverLog.Truthful (m : Model) (value : String → Int) (log : SolverLog) : Prop where
  /-- No penalty for hard constraints is shown. -/
  hardPenalty : log.hardPenalty = 0
  /-- Every variable has the decimal form of its value. -/
  solution : ∀ x ∈ m.vars, log.solution.get? x.name = some (value x.name).repr
  /-- No constraint is listed twice. -/
  nodup : (log.violated.map (·.1)).Nodup
  /-- The violated constraints are listed with the amounts, and no others. -/
  violated : ∀ name amount, (name, amount) ∈ log.violated ↔
    ∃ c ∈ m.constraints, c.name = name ∧ c.violation (.of value) = .ok amount ∧ 0 < amount

namespace WarmStart

variable {m : Model} {value : String → Int} {log : SolverLog}

/-- The warm start that an assignment gives. -/
def ofAssignment (m : Model) (value : String → Int) (price : Nat) : WarmStart :=
  ⟨m.vars.map fun x => (x.name, value x.name), m.tierTotal value price⟩

theorem pinsOf_eq_ok {xs : List Variable}
    (h : ∀ x ∈ xs, log.solution.get? x.name = some (value x.name).repr)
    (hfits : ∀ x ∈ xs, Word.InRange (value x.name)) :
    pinsOf log xs = .ok (xs.map fun x => (x.name, value x.name)) := by
  induction xs with
  | nil => rfl
  | cons x xs ih =>
    obtain ⟨hx, hxs⟩ := List.forall_mem_cons.1 h
    obtain ⟨hword, hwords⟩ := List.forall_mem_cons.1 hfits
    simp only [pinsOf, hx, Decimal.readInt_repr hword, ih hxs hwords]
    rfl

/-- The amounts that a log lists for the constraints of a price. -/
def listed (m : Model) (price : Nat) (violated : NameMap Int) : List Int :=
  (violated.filter fun v => (m.findConstraint? v.1).any (·.weight = .soft price)).map (·.2)

theorem amountsOf_eq (hm : m.Indexed) (price : Nat) (violated : NameMap Int) :
    amountsOf m price violated = .ok (listed m price violated) := by
  induction violated with
  | nil => rfl
  | cons v rest ih =>
    rw [amountsOf, hm.lookupConstraint_eq, ih, Checked.ok_bind, Checked.ok_bind]
    unfold listed
    rw [List.filter_cons]
    split <;> rfl

/-- The listed amounts of a price are the positive ones, in some order. -/
theorem perm_listed (hm : m.WellFormed) (hin : InDomains value m.vars)
    (h : log.Truthful m value) (price : Nat) :
    (listed m price log.violated).Perm
      (((m.ofPrice price).filter fun c => 0 < c.amount value).map (·.amount value)) := by
  have hnodup : (m.ofPrice price).Nodup := (hm.constraintsNodup.of_map _).filter _
  have hpairs : ((m.ofPrice price).filter fun c => 0 < c.amount value).map (·.amount value) =
      (((m.ofPrice price).filter fun c => 0 < c.amount value).map fun c =>
        (c.name, c.amount value)).map (·.2) := by
    rw [List.map_map]
    rfl
  -- Without the names two equal amounts could not be told apart; with them no entry repeats.
  rw [hpairs]
  refine List.Perm.map _ ((List.perm_ext_iff_of_nodup ((h.nodup.of_map _).filter _) ?_).2
    fun ⟨name, amount⟩ => ?_)
  · refine (hnodup.filter _).map_on fun c hc d hd heq => ?_
    have hc' := (Model.mem_ofPrice.1 (List.mem_of_mem_filter hc)).1
    have hd' := (Model.mem_ofPrice.1 (List.mem_of_mem_filter hd)).1
    exact List.inj_on_of_nodup_map hm.constraintsNodup hc' hd' (Prod.mk.inj heq).1
  · rw [List.mem_filter, h.violated, List.mem_map]
    constructor
    · rintro ⟨⟨c, hc, rfl, hviolation, hpos⟩, hprice⟩
      rw [hm.violation_eq_ok hin hc] at hviolation
      cases hviolation
      simp only [hm.findConstraint? hc, Option.any_some, decide_eq_true_eq] at hprice
      refine ⟨c, List.mem_filter.2 ⟨Model.mem_ofPrice.2 ⟨hc, hprice⟩, ?_⟩, rfl⟩
      exact decide_eq_true hpos
    · rintro ⟨c, hc, heq⟩
      cases heq
      obtain ⟨hof, hpos⟩ := List.mem_filter.1 hc
      obtain ⟨hmem, hprice⟩ := Model.mem_ofPrice.1 hof
      refine ⟨⟨c, hmem, rfl, hm.violation_eq_ok hin hmem, of_decide_eq_true hpos⟩, ?_⟩
      simp only [hm.findConstraint? hmem, Option.any_some, hprice, decide_true]

theorem sum_listed (hm : m.WellFormed) (hin : InDomains value m.vars)
    (h : log.Truthful m value) (price : Nat) :
    (listed m price log.violated).sum = m.tierTotal value price := by
  rw [(perm_listed hm hin h price).sum_eq, Model.tierTotal]
  induction m.ofPrice price with
  | nil => rfl
  | cons c cs ih =>
    have hnonneg := c.amount_nonneg value
    by_cases hpos : 0 < c.amount value
    · simp [hpos, ih]
    · have hzero : c.amount value = 0 := by omega
      simp [hzero, ih]

theorem nonneg_of_mem_listed (h : log.Truthful m value) {price : Nat} {k : Int}
    (hk : k ∈ listed m price log.violated) : 0 ≤ k := by
  obtain ⟨⟨name, amount⟩, hmem, rfl⟩ := List.mem_map.1 hk
  obtain ⟨c, -, -, -, hpos⟩ := (h.violated name amount).1 (List.mem_of_mem_filter hmem)
  exact hpos.le

/-- **Truthful logs.** The warm start of a truthful log is that of the assignment. -/
theorem ofLog_of_truthful (hm : m.WellFormed) (hin : InDomains value m.vars)
    (hfits : ∀ x ∈ m.vars, Word.InRange (value x.name)) (h : log.Truthful m value) {heavy : Tier}
    (hheavy : m.tiers.head? = some heavy)
    (htotal : Word.InRange (m.tierTotal value heavy.price)) :
    ofLog m log = .ok (some (ofAssignment m value heavy.price)) := by
  obtain ⟨lighter, htiers⟩ := List.head?_eq_some_iff.1 hheavy
  have hsum := sum_listed hm hin h heavy.price
  have hbound : Word.sum (listed m heavy.price log.violated) =
      .ok (m.tierTotal value heavy.price) := by
    rw [← hsum]
    exact word_sum_of_nonneg (fun k hk => nonneg_of_mem_listed h hk) (hsum ▸ htotal)
  simp only [ofLog, h.hardPenalty, htiers, amountsOf_eq hm.toIndexed, Checked.ok_bind, hbound,
    pinsOf_eq_ok h.solution hfits]
  rfl

/-- The values are the pinned ones, and the bound on the sum of that name is kept. -/
def Met (warm : WarmStart) (name : String) (value : String → Int) : Prop :=
  (∀ p ∈ warm.pins, value p.1 = p.2) ∧ value name ≤ warm.heavyBound

/-- What is assumed for the first question. -/
def assumptions (warm : WarmStart) (name : String) : List Assumption :=
  warm.pins.map (fun p => ⟨p.1, .eq, p.2⟩) ++ [⟨name, .le, warm.heavyBound⟩]

theorem holds_assumptions_iff {warm : WarmStart} {name : String} :
    (∀ a ∈ warm.assumptions name, a.Holds value) ↔ warm.Met name value := by
  rw [assumptions, List.forall_mem_append, List.forall_mem_map, List.forall_mem_singleton]
  rfl

/-- The extension of an assignment meets the warm start of the assignment. -/
theorem met_ofAssignment (hm : m.WellFormed) (value : String → Int) (price : Nat) :
    (ofAssignment m value price).Met (Names.tier price) (m.extended value) := by
  refine ⟨fun p hp => ?_, ((m.sums_tier price).extended value).le⟩
  obtain ⟨x, hx, rfl⟩ := List.mem_map.1 hp
  exact Model.extended_of_isValid (hm.varNames x hx)

end WarmStart

/-! ### The first question -/

namespace Optimizer

variable {σ α : Type} {b : Backend σ} {clauses : σ → List Clause} {m : Model}
  {o : Optimizer σ} {values : String → List Int} {names : List String} {exprs : List Expr}
  {fair : Optimizer σ → Prop} {warm : WarmStart}

/-- **The first question.** Under a warm start that something meets, the question is not refused, so
it is put once. -/
theorem runs_askWarm (hb : b.Sound clauses)
    (hs : o.Room → o.session.Stands clauses values names exprs []) {name : String}
    (hname : o.Room → name ∈ names) (hpins : o.Room → ∀ p ∈ warm.pins, p.1 ∈ names)
    (hmet : o.Room → ∃ value, Expr.AllHold value exprs ∧ warm.Met name value) :
    Runs fair (askWarm b name warm) o fun outcome o' =>
      o'.questions = o.questions ++ [⟨none, outcome⟩] ∧ outcome ≠ .unsat ∧
        ∀ s, outcome = .sat s → warm.Met name s.value := by
  refine (runs_assumePins hb hs hpins).bind fun _ o₁ hlater₁ h₁ => ?_
  refine (runs_assume hb (fun hroom => (h₁ hroom).2) (fun hroom => hname (hlater₁.room hroom)) .le
    warm.heavyBound).bind fun _ o₂ hlater₂ h₂ => ?_
  have hquestions : o₂.Room → o₂.questions = o.questions := by
    intro hroom
    rw [(h₂ hroom).1, (h₁ (hlater₂.room hroom)).1]
  have hstands : o₂.Room →
      o₂.session.Stands clauses values names exprs (warm.assumptions name) := by
    intro hroom
    have hstands := (h₂ hroom).2
    rwa [List.nil_append] at hstands
  refine (runs_ask hb hstands none).bind fun outcome o₃ hlater₃ h₃ => ?_
  have hnoted : o₃.Room → o₃.questions = o.questions ++ [⟨none, outcome⟩] := by
    intro hroom
    rw [(h₃ hroom).frame, ← hquestions (hlater₃.room hroom)]
  cases outcome with
  | sat s =>
    refine runs_pure fun hroom => ⟨hnoted hroom, by simp, fun t ht => ?_⟩
    cases ht
    exact WarmStart.holds_assumptions_iff.1 (h₃ hroom).right.2.2
  | interrupted => exact runs_pure fun hroom => ⟨hnoted hroom, by simp, by simp⟩
  | unsat =>
    -- Something meets what is assumed, so this does not happen.
    have hnever : ¬o₃.Room := by
      intro hroom
      obtain ⟨value, hall, hvalue⟩ := hmet (hlater₁.room (hlater₂.room (hlater₃.room hroom)))
      exact (h₃ hroom).right ⟨value, hall, WarmStart.holds_assumptions_iff.2 hvalue⟩
    have hagain : o₃.Room → o₃.session.Stands clauses values names exprs [] :=
      fun hroom => absurd hroom hnever
    refine (runs_ask hb hagain none).mono fun _ o₄ hlater₄ hroom _ => ?_
    exact absurd (hlater₄.room hroom) hnever

/-- The first question was not refused, and its answer meets the warm start. -/
def Opened (warm : WarmStart) (name : String) (o : Optimizer σ) : Prop :=
  ∃ outcome rest, o.questions = ⟨none, outcome⟩ :: rest ∧ outcome ≠ .unsat ∧
    ∀ s, outcome = .sat s → warm.Met name s.value

/-- More may be known of a run that succeeds. -/
theorem Runs.and {x : Action σ α} {post post' : α → Optimizer σ → Prop} (h : Runs fair x o post)
    (hok : ∀ a o', x o = .ok a o' → Later o o' → o'.Room → post' a o') :
    Runs fair x o fun a o' => post a o' ∧ post' a o' := by
  unfold Runs at h ⊢
  cases hx : x o with
  | ok a o' =>
    rw [hx] at h
    exact ⟨h.1, fun hroom => ⟨h.2 hroom, hok a o' hx h.1 hroom⟩⟩
  | error e o' =>
    rw [hx] at h
    cases e with
    | fault _ => exact h
    | error e => exact h

theorem opened_minimizeTiers (hb : b.Sound clauses) (hm : m.Formulable) {price : Nat}
    {rest : List Nat} (hwarm : Pins m (some warm)) {value : String → Int}
    (hvalue : m.Feasible value) (hmet : warm.Met (Names.tier price) (m.extended value))
    (hprepared : Prepared clauses m ⟨m.vars, m.hardConstraints, []⟩
      (Formulation.sayings m m.hardConstraints) .searching o) {u : Unit} {o' : Optimizer σ}
    (h : minimizeTiers b true (some warm) (price :: rest) o = .ok u o') (hroom : o'.Room) :
    Opened warm (Names.tier price) o' := by
  have ha := m.sums_tier price
  rw [minimizeTiers_cons] at h
  obtain ⟨ub, o₁, hadd, hrest⟩ := Step.bind_eq_ok.1 h
  obtain ⟨outcome, o₂, hask, hafter⟩ := Step.bind_eq_ok.1 hrest
  obtain ⟨hpath₁, hphase₁⟩ := (walks_addTier (b := b) (.tier price) price).of_eq_ok hadd
  have hsearch₁ : o₁.Searching := hphase₁.trans hprepared.phase
  obtain ⟨hpath₂, hsearch₂, hreceived⟩ := (walks_askTier hsearch₁ _ _).of_eq_ok hask
  have hlater₃ : Later o₂ o' := by
    refine ((walks_afterTier hsearch₂ hreceived fun o₃ hsearch₃ hbest =>
      ?_).of_eq_ok hafter).1.later
    exact walks_minimizeTiers hsearch₃ _ _ _ fun _ => hbest
  have hroom₂ := hlater₃.room hroom
  have hroom₁ := hpath₂.later.room hroom₂
  -- The tier is said, and the extension of the assignment satisfies what is said.
  have htiered₀ : Tiered b clauses m [] [] _ o := tiered_of_prepared hm hprepared
  have hruns : Runs (fun _ => False) (addTier (Names.tier price) price) o fun ub o' => ∃ es,
      Formulation.TierExprs m (Names.tier price) price es ∧ ub = m.tierBound price ∧
        Admits es (.ofTiers m ([] ++ [price])) o o' :=
    runs_addTier hm (by simp) fun _ => ⟨hprepared.model, htiered₀.formulation⟩
  obtain ⟨es, hes, -, hadmits⟩ := (hruns.of_eq_ok hadd).2 hroom₁
  obtain ⟨htiered, hname⟩ := htiered₀.addTier hm ha hes hadmits
  have haccepts := hes.accepts hm (.tier price) ha.valid ha.greatest
    (Formulation.speaks_hard hm).introduced
  have hprepared₁ := hprepared.admits haccepts.1 hadmits
  have hpins : ∀ p ∈ warm.pins,
      p.1 ∈ Expr.declaredBy (Formulation.sayings m m.hardConstraints ++ es) := by
    intro p hp
    obtain ⟨x, hx, hxname⟩ := hwarm warm rfl p hp
    rw [← hxname]
    exact (htiered.speaks.introduced x hx).1
  have hasked : Runs (fun _ => False) (askWarm b (Names.tier price) warm) o₁ _ :=
    runs_askWarm hb (fun _ => hprepared₁.stands) (fun _ => hname) (fun _ => hpins) fun _ =>
      ⟨_, htiered.bounded.complete value hvalue (by simp), hmet⟩
  obtain ⟨hquestions, hne, hsat⟩ := (hasked.of_eq_ok hask).2 hroom₂
  rw [hprepared₁.asked.1, List.nil_append] at hquestions
  obtain ⟨later, hlater⟩ := hlater₃.questions
  refine ⟨outcome, later, ?_, hne, hsat⟩
  rw [← hlater, hquestions]
  rfl

/-- **Warm searches.** From a warm start that the extension of a feasible assignment meets, the
search opens with an answer. -/
theorem runs_optimizeTiers_warm (hb : b.Sound clauses) (hm : m.Formulable) {heavy : Tier}
    (hheavy : m.tiers.head? = some heavy) (hwarm : Pins m (some warm)) {value : String → Int}
    (hvalue : m.Feasible value) (hmet : warm.Met (Names.tier heavy.price) (m.extended value))
    (h : o.Room → Prepared clauses m ⟨m.vars, m.hardConstraints, []⟩
      (Formulation.sayings m m.hardConstraints) .searching o) :
    Runs fair (optimizeTiers b (some warm)) o fun _ o' =>
      TiersSearched m 2 o' ∧ Opened warm (Names.tier heavy.price) o' := by
  refine (runs_optimizeTiers hb hm (fun _ => hwarm) h).and fun _ o' hok hlater hroom => ?_
  have hprepared := h (hlater.room hroom)
  obtain ⟨lighter, htiers⟩ := List.head?_eq_some_iff.1 hheavy
  rw [optimizeTiers, Step.get_bind_apply, hprepared.model, htiers, List.map_cons] at hok
  exact opened_minimizeTiers hb hm hwarm hvalue hmet hprepared hok hroom

end Optimizer

namespace Strategy

open Optimizer

variable {σ : Type} {b : Backend σ} {clauses : σ → List Clause} {m : Model} {o : Optimizer σ}
  {fair : Optimizer σ → Prop} {warm : WarmStart} {heavy : Tier} {value : String → Int}

/-- What a search comes to that makes use of its warm start. -/
structure Warmed (m : Model) (heavy : Tier) (warm : WarmStart) (r : Report) (o : Optimizer σ) :
    Prop where
  /-- The first question is answered, and the answer meets the warm start. -/
  first : ∃ s rest, o.questions = ⟨none, .sat s⟩ :: rest ∧ warm.Met (Names.tier heavy.price) s.value
  /-- The search comes to its end. -/
  optimal : r.status = .optimal
  /-- The least total of the heaviest tier is found, and it does not exceed the bound. -/
  heaviest : ∃ least lighter, r.tiers = (heavy.price, least) :: lighter ∧ least ≤ warm.heavyBound ∧
    ∀ other, m.Feasible other → least ≤ m.tierTotal other heavy.price

theorem warmed_of_searched (hm : m.Formulable) (hheavy : m.tiers.head? = some heavy)
    (hvalue : m.Feasible value) (hbound : m.tierTotal value heavy.price ≤ warm.heavyBound)
    (hsearched : TiersSearched m 2 o) (hopened : Opened warm (Names.tier heavy.price) o)
    {name : String} {r : Report} (hr : o.report b name = .ok r) (hun : o.Uninterrupted) :
    Warmed m heavy warm r o := by
  have hlex := lexicographic_of_searched hm hsearched hr
  -- Nothing was interrupted and something is feasible, so the report is optimal.
  have hoptimal : r.status = .optimal := by
    obtain ⟨hstatus, hrefused⟩ := hlex.decided hun
    exact hstatus.resolve_right fun hinf => hrefused.1 hinf ⟨value, hvalue⟩
  refine ⟨?_, hoptimal, ?_⟩
  · obtain ⟨outcome, rest, hquestions, hne, hsat⟩ := hopened
    cases outcome with
    | sat s => exact ⟨s, rest, hquestions, hsat s rfl⟩
    | unsat => exact absurd rfl hne
    | interrupted =>
      refine absurd rfl (hun ⟨none, .interrupted⟩ ?_)
      rw [hquestions]
      exact List.mem_cons_self
  · obtain ⟨best, hforemost, -, -, htiers, -, -⟩ := hlex.optimal hoptimal
    obtain ⟨lighter, hlist⟩ := List.head?_eq_some_iff.1 hheavy
    have hleast : ∀ other, m.Feasible other →
        m.tierTotal best heavy.price ≤ m.tierTotal other heavy.price := by
      intro other hother
      have hle := hforemost.2 other hother
      rw [Model.totals, Model.totals, hlist, List.map_cons, List.map_cons, List.map_cons,
        Formulation.cons_le_cons_iff] at hle
      rcases hle with hlt | ⟨heq, -⟩
      · exact hlt.le
      · exact heq.le
    rw [hlist, List.map_cons] at htiers
    exact ⟨_, _, htiers, (hleast value hvalue).trans hbound, hleast⟩

theorem runs_completeTiers_warm (hb : b.Sound clauses) (hm : m.Formulable)
    (h : Prepared clauses m .empty [] .start o) (hheavy : m.tiers.head? = some heavy)
    (hwarm : Pins m (some warm)) (hvalue : m.Feasible value)
    (hmet : warm.Met (Names.tier heavy.price) (m.extended value)) (name : String) :
    Runs fair (completeTiers b (some warm) name) o fun r o' =>
      (TiersSearched m 2 o' ∧ Opened warm (Names.tier heavy.price) o') ∧
        o'.report b name = .ok r := by
  refine (runs_formulateHard hm h).bind fun _ o₁ _ h₁ => ?_
  refine (runs_encode hb h₁).bind fun _ o₂ _ h₂ => ?_
  refine (runs_beginSearch h₂).bind fun _ o₃ _ h₃ => ?_
  refine (runs_optimizeTiers_warm hb hm hheavy hwarm hvalue hmet h₃).bind
    fun _ o₄ _ h₄ => runs_get_bind ?_
  exact runs_checked (tame_report b _ _) fun r hr hroom => ⟨h₄ hroom, hr⟩

/-- The local search answers every request with the log. -/
def Reports (run : LocalSearch.Runner) (log : SolverLog) : Prop :=
  ∀ q : LocalSearch.Request, ∃ text, q.result (run q) = .ok (log, text)

theorem eq_of_localLog {run : LocalSearch.Runner} {log l : SolverLog} (hrun : Reports run log)
    {o' : Optimizer σ} (h : localLog run o = .ok l o') : l = log := by
  rw [localLog, Step.get_bind_apply] at h
  obtain ⟨q, o₁, -, h₁⟩ := Step.bind_eq_ok.1 h
  obtain ⟨_, o₂, -, h₂⟩ := Step.bind_eq_ok.1 h₁
  obtain ⟨text, hresult⟩ := hrun q
  rw [hresult] at h₂
  cases h₂
  rfl

theorem runs_hybrid_warm (hb : b.Sound clauses) (hm : m.Formulable)
    (h : Prepared clauses m .empty [] .start o) (hheavy : m.tiers.head? = some heavy)
    {run : LocalSearch.Runner} {log : SolverLog} (hrun : Reports run log)
    (hlog : WarmStart.ofLog m log = .ok (some warm)) (hvalue : m.Feasible value)
    (hmet : warm.Met (Names.tier heavy.price) (m.extended value)) :
    Runs (fun _ => False) (complete b run .hybrid) o fun r o' =>
      (TiersSearched m 2 o' ∧ Opened warm (Names.tier heavy.price) o') ∧
        o'.report b hybrid.name = .ok r := by
  refine (runs_formulateHard hm h).bind fun _ o₁ hlater₁ h₁ => ?_
  refine (runs_encode hb h₁).bind fun _ o₂ hlater₂ h₂ => ?_
  have hsearch : Runs (fun _ => False) (searchHybrid b run) o₂ fun _ o' =>
      TiersSearched m 2 o' ∧ Opened warm (Names.tier heavy.price) o' := by
    refine (runs_beginSearch h₂).bind fun _ o₃ hlater₃ h₃ => ?_
    have hlocal := (runs_localLog (o := o₃) run).and fun l o' hok _ _ => eq_of_localLog hrun hok
    refine hlocal.bind fun l o₄ hlater₄ h₄ => runs_get_bind ?_
    have hlater := (hlater₁.trans hlater₂).trans (hlater₃.trans hlater₄)
    rw [hlater.model.trans h.model]
    have h₄' : o₄.Room → Prepared clauses m ⟨m.vars, m.hardConstraints, []⟩
        (Formulation.sayings m m.hardConstraints) .searching o₄ := by
      intro hroom
      have hprepared := h₃ (hlater₄.room hroom)
      rw [(h₄ hroom).1]
      exact ⟨hprepared.model, hprepared.formulation, hprepared.stands, hprepared.phase,
        hprepared.asked⟩
    refine runs_except_bind (tame_ofLog hm.toIndexed l) (fun w hw => ?_)
      fun _ _ _ hfair => hfair.elim
    by_cases hroom : o₄.Room
    · rw [(h₄ hroom).2, hlog] at hw
      cases hw
      exact runs_optimizeTiers_warm hb hm hheavy (pins_ofLog hlog) hvalue hmet h₄'
    · -- Without room nothing is said of the search.
      refine (runs_optimizeTiers hb hm (fun hroom' => absurd hroom' hroom) h₄').mono ?_
      exact fun _ o₅ hlater₅ hroom₅ _ => absurd (hlater₅.room hroom₅) hroom
  refine hsearch.bind fun _ o₃ _ h₃ => runs_get_bind ?_
  exact runs_checked (tame_report b _ _) fun r hr hroom => ⟨h₃ hroom, hr⟩

/-- **Truthful logs are accepted.** From a truthful log about a feasible assignment, whose total of
the heaviest tier fits the machine range, comes the warm start that pins all variables to their
values and bounds the heaviest tier by that total.  Its first question is answered if nothing is
interrupted, so it is not put again without the warm start, and the least total that is found for
the heaviest tier does not exceed the bound. -/
theorem truthful_accepted (hb : b.Sound clauses) {s₀ : σ} (h₀ : clauses s₀ = []) (hm : m.Built)
    (hnames : ∀ x ∈ m.vars, Names.isReserved x.name = false) {options : MethodOptions}
    (hnew : Optimizer.new b s₀ m options = .ok o) (hsoft : m.softConstraints ≠ [])
    (hvalue : m.Feasible value) (hwords : ∀ x ∈ m.vars, Word.InRange (value x.name))
    {log : SolverLog} (hlog : log.Truthful m value)
    (htotal : ∀ t, m.tiers.head? = some t → Word.InRange (m.tierTotal value t.price)) :
    ∃ heavy warm, m.tiers.head? = some heavy ∧ WarmStart.ofLog m log = .ok (some warm) ∧
      warm.pins = m.vars.map (fun x => (x.name, value x.name)) ∧
      warm.heavyBound = m.tierTotal value heavy.price ∧
      Ends (completeTiers b (some warm) hybrid.name o) (fun r o' =>
        o'.Uninterrupted → Warmed m heavy warm r o') ∧
      ∀ run r o', Reports run log → complete b run .hybrid o = .ok r o' → o'.Room →
        o'.Uninterrupted → Warmed m heavy warm r o' := by
  obtain ⟨hprepared, hsupported⟩ := prepared_new hb h₀ hnew
  have hform := Model.formulable_of_built hm hnames hsupported
  obtain ⟨heavy, hheavy⟩ := Model.exists_heaviest hsoft
  have hof := WarmStart.ofLog_of_truthful hm.wellFormed hvalue.inDomains hwords hlog hheavy
    (htotal heavy hheavy)
  have hmet := WarmStart.met_ofAssignment hm.wellFormed value heavy.price
  refine ⟨heavy, _, hheavy, hof, rfl, rfl, ?_, fun run r o' hrun heq hroom hun => ?_⟩
  · refine (runs_completeTiers_warm hb hform hprepared hheavy (pins_ofLog hof) hvalue hmet
      hybrid.name).ends fun r o' h hun => ?_
    exact warmed_of_searched hform hheavy hvalue le_rfl h.1.1 h.1.2 h.2 hun
  · obtain ⟨⟨hsearched, hopened⟩, hr⟩ :=
      ((runs_hybrid_warm hb hform hprepared hheavy hrun hof hvalue hmet).of_eq_ok heq).2 hroom
    exact warmed_of_searched hform hheavy hvalue le_rfl hsearched hopened hr hun

/-- A log that tells of a true value, which violates the dearer constraint. -/
def tornLog : SolverLog := ⟨0, 2, 0, 0, 0, 0, [("y", "1")], [("unwanted", 1)]⟩

theorem truthful_tornLog : tornLog.Truthful Model.Sample.torn fun _ => 1 := by
  have hwanted : Model.Sample.wanted.violation (.of fun _ => 1) = .ok 0 := rfl
  have hunwanted : Model.Sample.unwanted.violation (.of fun _ => 1) = .ok 1 := rfl
  refine ⟨rfl, by decide, by decide, fun name amount => ?_⟩
  simp only [tornLog, Model.Sample.torn, Model.ofLists, List.mem_cons, List.not_mem_nil, or_false,
    exists_eq_or_imp, exists_eq_left, hwanted, hunwanted]
  constructor
  · rintro ⟨⟩
    exact .inr ⟨rfl, rfl, by decide⟩
  · rintro (⟨-, ⟨⟩, hpos⟩ | ⟨rfl, ⟨⟩, -⟩)
    · cases hpos
    · rfl

/-- A warm start that can be improved on. -/
theorem truthful_accepted_torn : ∃ r o',
    WarmStart.ofLog Model.Sample.torn tornLog = .ok (some ⟨[("y", 1)], 1⟩) ∧
      completeTiers .reference (some ⟨[("y", 1)], 1⟩) hybrid.name tornStart = .ok r o' ∧ o'.Room ∧
      o'.Uninterrupted ∧
      Warmed Model.Sample.torn ⟨2, [Model.Sample.unwanted]⟩ ⟨[("y", 1)], 1⟩ r o' ∧
      r.tiers = [(2, 0), (1, 1)] := by
  have hrun : digest (completeTiers .reference (some ⟨[("y", 1)], 1⟩) hybrid.name tornStart) =
      some ⟨.optimal, some 1, [(2, 0), (1, 1)], 4, 16, true⟩ := by cbv
  obtain ⟨r, o', heq, hroom, hdigest⟩ := exists_run_of_digest hrun (by decide)
  have hun := uninterrupted_of_answered (congrArg Digest.answered hdigest)
  have hfeasible : Model.Sample.torn.Feasible fun _ => 1 := ⟨by decide, List.forall_mem_nil _⟩
  obtain ⟨heavy, warm, hheavy, hof, -, -, hends, -⟩ :=
    truthful_accepted Backend.reference_sound rfl Model.Sample.built_torn (by decide)
      (show Optimizer.new .reference [] Model.Sample.torn {} = .ok tornStart from rfl) (by decide)
      hfeasible (by decide) truthful_tornLog (by decide)
  have hof' : WarmStart.ofLog Model.Sample.torn tornLog = .ok (some ⟨[("y", 1)], 1⟩) := by cbv
  cases hof.symm.trans hof'
  cases hheavy
  rw [heq] at hends
  exact ⟨r, o', hof', heq, hroom, hun, hends hroom hun, congrArg Digest.tiers hdigest⟩

/-- The optimizer for a model with a total that does not fit. -/
def steepStart : Optimizer (List Clause) := referenceStart Model.Sample.steep

/-- A log that tells of a true value, which violates all constraints. -/
def steepLog : SolverLog :=
  ⟨0, 13835058055282163712, 0, 0, 0, 0, [("y", "1")],
    [("a", 4611686018427387904), ("b", 4611686018427387904), ("c", 4611686018427387904)]⟩

theorem truthful_steepLog : steepLog.Truthful Model.Sample.steep fun _ => 1 := by
  have hviolation : ∀ name, (Model.Sample.steepLimit name).violation (.of fun _ => 1) =
      .ok 4611686018427387904 := fun _ => rfl
  refine ⟨rfl, by decide, by decide, fun name amount => ?_⟩
  simp only [steepLog, Model.Sample.steep, Model.ofLists, List.mem_cons, List.not_mem_nil, or_false,
    exists_eq_or_imp, exists_eq_left, hviolation, Prod.mk.injEq, Except.ok.injEq]
  constructor
  · rintro (⟨rfl, rfl⟩ | ⟨rfl, rfl⟩ | ⟨rfl, rfl⟩)
    · exact .inl ⟨rfl, rfl, by decide⟩
    · exact .inr (.inl ⟨rfl, rfl, by decide⟩)
    · exact .inr (.inr ⟨rfl, rfl, by decide⟩)
  · rintro (⟨rfl, rfl, -⟩ | ⟨rfl, rfl, -⟩ | ⟨rfl, rfl, -⟩)
    · exact .inl ⟨rfl, rfl⟩
    · exact .inr (.inl ⟨rfl, rfl⟩)
    · exact .inr (.inr ⟨rfl, rfl⟩)

/-- A truthful log gives no warm start if the total of the heaviest tier does not fit. -/
theorem truthful_overflows : Model.Sample.steep.Built ∧
    (∀ x ∈ Model.Sample.steep.vars, Names.isReserved x.name = false) ∧
    Optimizer.new .reference [] Model.Sample.steep {} = .ok steepStart ∧
    Model.Sample.steep.softConstraints ≠ [] ∧ Model.Sample.steep.Feasible (fun _ => 1) ∧
    (∀ x ∈ Model.Sample.steep.vars, Word.InRange ((fun _ => 1) x.name)) ∧
    steepLog.Truthful Model.Sample.steep (fun _ => 1) ∧
    WarmStart.ofLog Model.Sample.steep steepLog = .error (.fault .add) :=
  ⟨Model.Sample.built_steep, by decide, rfl, by decide, ⟨by decide, List.forall_mem_nil _⟩,
    by decide, truthful_steepLog, by cbv⟩

end Strategy

end WeightedCsp

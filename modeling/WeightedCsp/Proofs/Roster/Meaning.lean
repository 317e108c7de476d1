import Mathlib.Logic.Function.Basic
import WeightedCsp.Proofs.Formulation.Names
import WeightedCsp.Proofs.Method.Scores
import WeightedCsp.Proofs.Roster.Planning
import WeightedCsp.Proofs.Roster.Schedule

/-!
# The model of a roster means its rules

The hard constraints of the model say of the values of the variables what the rules say of the
shifts (`means_rules`), and the soft ones charge the price of the wishes that are not fulfilled.  So
a schedule violates no hard constraint exactly if the days of every member obey the rules, and it
scores its price (`model_means_rules`).

Windows and stretches are planned for those first days only from which on they fit into the roster.
For all other days there is nothing to say, since runs lie in the roster by definition.
-/

namespace WeightedCsp.Roster

/-! ### Constraints that were built -/

theorem shiftValue_eq_ok {shift : Nat} {v : Int} (h : shiftValue shift = .ok v) : v = shift := by
  unfold shiftValue at h
  split_ifs at h
  cases h
  rfl

/-- Looking up a cell gives its variable, inside the roster. -/
theorem lookUp_eq_ok {p : Params} {staff day : Nat} {x : Variable}
    (h : lookUp p staff day = .ok x) :
    staff < p.staff ∧ day < p.days ∧ x = dayVariable p staff day := by
  unfold lookUp at h
  split_ifs at h with hstaff hday
  cases h
  exact ⟨by omega, by omega, rfl⟩

theorem lookUp_of_lt {p : Params} {staff day : Nat} (hstaff : staff < p.staff)
    (hday : day < p.days) :
    lookUp p staff day = .ok (dayVariable p staff day) := by
  rw [lookUp, if_neg (by omega), if_neg (by omega)]

/-- On a day of the roster there is a term for each member. -/
theorem coverTerms_eq {p : Params} {day : Nat} (hday : day < p.days) (shift : Int) :
    coverTerms p day shift =
      .ok ((List.range p.staff).map fun staff => ⟨1, dayVariable p staff day, shift⟩) := by
  apply Checked.mapM_eq_ok
  intro staff hstaff
  rw [lookUp_of_lt (List.mem_range.1 hstaff) hday]
  rfl

theorem entry_eq_ok {α : Type} {table : List α} {place : Nat} {a d : α}
    (h : Checked.entry table place = .ok a) : table.getD place d = a := by
  unfold Checked.entry at h
  split at h
  · next hsome =>
    cases h
    rw [List.getD_eq_getElem?_getD, hsome]
    rfl
  · cases h

/-- A conflict that is built is what it should be. -/
theorem conflict_eq_ok {name : String} {weight : Weight} {terms : List Predicate} {c : Constraint}
    (h : building (Constraint.conflict name weight terms) = .ok c) :
    c.Built ∧ c = ⟨name, weight, .conflict terms⟩ := by
  have hc := building_eq_ok.1 h
  obtain ⟨_, -, h₁⟩ := Checked.bind_eq_ok.1 hc
  obtain ⟨_, -, h₂⟩ := Checked.bind_eq_ok.1 h₁
  cases h₂
  exact ⟨.conflict hc, rfl⟩

/-- So is a bound on indicators. -/
theorem pseudoBoolean_eq_ok {name : String} {weight : Weight} {terms : List IndicatorTerm}
    {op : Comparator} {rhs : Int} {c : Constraint}
    (h : building (Constraint.pseudoBoolean name weight terms (some op) rhs) = .ok c) :
    c.Built ∧ c = ⟨name, weight, .pseudoBoolean terms op rhs⟩ := by
  have hc := building_eq_ok.1 h
  obtain ⟨_, -, h₁⟩ := Checked.bind_eq_ok.1 hc
  obtain ⟨_, hop, h₂⟩ := Checked.bind_eq_ok.1 h₁
  obtain ⟨_, -, h₃⟩ := Checked.bind_eq_ok.1 h₂
  obtain ⟨_, -, h₄⟩ := Checked.bind_eq_ok.1 h₃
  cases hop
  cases h₄
  exact ⟨.pseudoBoolean hc, rfl⟩

/-- A sum of indicators of one shift counts the variables that have it. -/
theorem indicatorTotal_map {α : Type} {value : String → Int} {as : List α} {x : α → Variable}
    {shiftOf : α → Nat} (h : ∀ a ∈ as, value (x a).name = shiftOf a) (shift : Nat) :
    indicatorTotal value (as.map fun a => ⟨1, x a, shift⟩) = as.countP (shiftOf · = shift) := by
  induction as with
  | nil => rfl
  | cons a as ih =>
    obtain ⟨ha, has⟩ := List.forall_mem_cons.1 h
    rw [List.map_cons, List.countP_cons]
    show (if value (x a).name = shift then (1 : Int) else 0) + indicatorTotal value _ = _
    rw [ih has, ha]
    by_cases htaken : shiftOf a = shift
    · rw [htaken, if_pos rfl, if_pos (decide_eq_true rfl), Int.natCast_add, Int.add_comm]
      rfl
    · simp [htaken]

/-! ### Rules -/

section Rules

variable {r : Roster} {p : Params} {staff : Nat} {value : String → Int} {row : Nat → Nat}

/-- The variables of a member have the shifts of its days as values. -/
def ShowsRow (p : Params) (staff : Nat) (value : String → Int) (row : Nat → Nat) : Prop :=
  ∀ day < p.days, value (variableName staff day) = row day

/-- A term for a shift speaks of the shift that is worked. -/
theorem ShowsRow.holds_iff (hrow : ShowsRow p staff value row) {day : Nat} (hday : day < p.days)
    (shift : Nat) (polarity : Bool) :
    Predicate.Holds value ⟨dayVariable p staff day, shift, polarity⟩ ↔
      (row day = shift ↔ polarity = true) := by
  show (value (variableName staff day) = shift ↔ _) ↔ _
  rw [hrow day hday, Int.natCast_inj]

theorem ShowsRow.off_iff (hrow : ShowsRow p staff value row) {day : Nat} (hday : day < p.days) :
    (offTerm p staff day true).Holds value ↔ row day = 0 := by
  rw [offTerm, ← Int.natCast_zero, hrow.holds_iff hday, iff_true_right rfl]

theorem ShowsRow.worked_iff (hrow : ShowsRow p staff value row) {day : Nat} (hday : day < p.days) :
    (offTerm p staff day false).Holds value ↔ row day ≠ 0 := by
  rw [offTerm, ← Int.natCast_zero, hrow.holds_iff hday, iff_false_right Bool.false_ne_true]

/-- A conflict on two days forbids a succession. -/
theorem means_succession (hrow : ShowsRow p staff value row) {day : Nat} (hday : day + 1 < p.days)
    (shift next : Nat) :
    Means value [succession p staff day shift next] (¬ (row day = shift ∧ row (day + 1) = next))
      0 := by
  apply means_hard
  intro c hc
  obtain ⟨a, ha, h₁⟩ := Checked.bind_eq_ok.1 hc
  obtain ⟨b, hb, h₂⟩ := Checked.bind_eq_ok.1 h₁
  obtain ⟨hbuilt, rfl⟩ := conflict_eq_ok h₂
  obtain rfl := shiftValue_eq_ok ha
  obtain rfl := shiftValue_eq_ok hb
  refine ⟨hbuilt, rfl, not_congr ?_⟩
  rw [List.forall_mem_cons, List.forall_mem_singleton, hrow.holds_iff (by omega),
    hrow.holds_iff hday, iff_true_right rfl, iff_true_right rfl]

theorem notMem_getD_iff {table : List (List Nat)} {shift next : Nat} :
    (∀ e ∈ table.zipIdx, ∀ n ∈ e.1, ¬ (shift = e.2 ∧ next = n)) ↔ next ∉ table.getD shift [] := by
  rw [List.getD_eq_getElem?_getD]
  constructor
  · intro h hmem
    cases hrow : table[shift]? with
    | none => simp [hrow] at hmem
    | some nexts =>
      rw [hrow] at hmem
      exact h (nexts, shift) (List.mem_zipIdx_iff_getElem?.2 hrow) next hmem ⟨rfl, rfl⟩
  · rintro h ⟨nexts, _⟩ he _ hn ⟨rfl, rfl⟩
    rw [List.mem_zipIdx_iff_getElem?.1 he] at h
    exact h hn

/-- All conflicts together forbid the forbidden successions. -/
theorem means_successions (hrow : ShowsRow r.params staff value row) :
    Means value (successions r staff)
      (∀ day, day + 1 < r.params.days → row (day + 1) ∉ r.forbidden.getD (row day) []) 0 := by
  have hmeans : Means value (successions r staff)
      (∀ day ∈ List.range (r.params.days - 1), ∀ e ∈ r.forbidden.zipIdx, ∀ n ∈ e.1,
        ¬ (row day = e.2 ∧ row (day + 1) = n)) 0 := by
    apply Means.flatMap_zero
    intro day hday
    rw [List.mem_range] at hday
    apply Means.flatMap_zero
    rintro ⟨nexts, shift⟩ -
    apply Means.map_zero
    intro next _
    exact means_succession hrow (by omega) shift next
  refine hmeans.congr (forall_congr' fun day => ?_) rfl
  rw [notMem_getD_iff, List.mem_range, Nat.lt_sub_iff_add_lt]

/-- The indicators of a shift count how often it is worked. -/
theorem ShowsRow.indicatorTotal_eq (hrow : ShowsRow p staff value row) (shift : Nat) :
    indicatorTotal value (workTerms p staff shift) = timesWorked p.days row shift :=
  indicatorTotal_map (fun day hday => hrow day (List.mem_range.1 hday)) shift

/-- A bound on them limits how often it is worked. -/
theorem means_atMost (hrow : ShowsRow p staff value row) (shift max : Nat) :
    Means value [atMost p staff shift max] (timesWorked p.days row shift ≤ max) 0 := by
  apply means_hard
  intro c hc
  obtain ⟨t, ht, h₁⟩ := Checked.bind_eq_ok.1 hc
  obtain ⟨hbuilt, rfl⟩ := pseudoBoolean_eq_ok h₁
  obtain rfl := shiftValue_eq_ok ht
  refine ⟨hbuilt, rfl, ?_⟩
  show indicatorTotal value (workTerms p staff shift) ≤ max ↔ _
  rw [hrow.indicatorTotal_eq, Int.ofNat_le]

theorem means_shiftLimit (hrow : ShowsRow r.params staff value row) (shift : Nat) :
    Means value (shiftLimit r staff shift)
      (timesWorked r.params.days row shift ≤ (r.maxShifts.getD staff []).getD shift 0) 0 := by
  apply means_orFault
  intro plan hplan
  obtain ⟨limits, hlimits, h₁⟩ := Checked.bind_eq_ok.1 hplan
  obtain ⟨max, hmax, h₂⟩ := Checked.bind_eq_ok.1 h₁
  cases h₂
  rw [entry_eq_ok hlimits, entry_eq_ok hmax]
  split_ifs with hall
  · -- No shift is worked more often than there are days.
    have hle := timesWorked_le r.params.days row shift
    exact means_nil.congr (iff_of_true trivial (hle.trans hall)) rfl
  · exact means_atMost hrow shift max

/-- All bounds together keep the limits of the member. -/
theorem means_shiftLimits (hrow : ShowsRow r.params staff value row) :
    Means value (shiftLimits r staff)
      (∀ shift, 1 ≤ shift → shift ≤ r.params.shifts →
        timesWorked r.params.days row shift ≤ (r.maxShifts.getD staff []).getD shift 0) 0 := by
  refine (Means.flatMap_zero fun shift _ => means_shiftLimit hrow shift).congr
    (forall_congr' fun shift => ?_) rfl
  rw [List.mem_range'_1, and_imp, Nat.add_comm, Nat.lt_succ_iff]

/-- All days of a window are worked if there is a run of its length. -/
theorem ShowsRow.forall_worked_iff (hrow : ShowsRow p staff value row) {first length : Nat}
    (hinside : first + length ≤ p.days) :
    (∀ t ∈ (List.range' first length).map fun day => offTerm p staff day false, t.Holds value) ↔
      Run p.days row first length := by
  rw [List.forall_mem_map]
  constructor
  · refine fun h => ⟨hinside, fun day hfirst hlast => ?_⟩
    have hmem : day ∈ List.range' first length := List.mem_range'_1.2 ⟨hfirst, hlast⟩
    exact (hrow.worked_iff (by omega)).1 (h day hmem)
  · intro h day hmem
    obtain ⟨hfirst, hlast⟩ := List.mem_range'_1.1 hmem
    exact (hrow.worked_iff (by omega)).2 (h.worked day hfirst hlast)

theorem means_window (hrow : ShowsRow p staff value row) {length first : Nat}
    (hinside : first + length ≤ p.days) :
    Means value [window p staff length first] (¬ Run p.days row first length) 0 := by
  apply means_hard
  intro c hc
  obtain ⟨hbuilt, rfl⟩ := conflict_eq_ok hc
  exact ⟨hbuilt, rfl, not_congr (hrow.forall_worked_iff hinside)⟩

/-- No run is longer than the longest allowed one. -/
theorem means_windows (hrow : ShowsRow p staff value row) :
    Means value (windows p staff)
      (∀ first length, Run p.days row first length → length ≤ p.maxConsecutive) 0 := by
  apply means_orFault
  intro plan hplan
  obtain ⟨length, hlength, h₁⟩ := Checked.bind_eq_ok.1 hplan
  obtain ⟨days, hdays, h₂⟩ := Checked.bind_eq_ok.1 h₁
  cases h₂
  obtain rfl := Word.addSize_eq_ok hlength
  obtain rfl := Word.addSize_eq_ok hdays
  have hmeans : Means value
      ((List.range (p.days + 1 - (p.maxConsecutive + 1))).map
        (window p staff (p.maxConsecutive + 1)))
      (∀ first ∈ List.range (p.days + 1 - (p.maxConsecutive + 1)),
        ¬ Run p.days row first (p.maxConsecutive + 1)) 0 := by
    apply Means.map_zero
    intro first hfirst
    rw [List.mem_range] at hfirst
    exact means_window hrow (by omega)
  rw [run_le_iff]
  refine hmeans.congr (forall_congr' fun first => ?_) rfl
  rw [List.mem_range]
  -- A window that does not fit into the roster is no run.
  refine ⟨fun h hrun => ?_, fun h _ => h⟩
  have hinside := hrun.inside
  exact h (by omega) hrun

/-- A conflict for a stretch forbids just this stretch between days off. -/
theorem means_stretch (hrow : ShowsRow p staff value row) {length day : Nat}
    (hinside : day + length + 1 < p.days) :
    Means value [stretch p staff length day] (¬ Stretch p.days row day length) 0 := by
  apply means_hard
  intro c hc
  obtain ⟨hbuilt, rfl⟩ := conflict_eq_ok hc
  refine ⟨hbuilt, rfl, not_congr ?_⟩
  rw [List.forall_mem_append, List.forall_mem_cons, List.forall_mem_singleton,
    hrow.off_iff (by omega), hrow.off_iff hinside, hrow.forall_worked_iff (by omega)]
  constructor
  · rintro ⟨⟨hbefore, hrun⟩, hafter⟩
    exact ⟨hbefore, hrun, hafter⟩
  · rintro ⟨hbefore, hrun, hafter⟩
    exact ⟨⟨hbefore, hrun⟩, hafter⟩

/-- No run inside the horizon is shorter than the shortest allowed one. -/
theorem means_stretches (hrow : ShowsRow p staff value row) :
    Means value (stretches p staff)
      (∀ first length, MaximalRun p.days row first length → 0 < first → first + length < p.days →
        p.minConsecutive ≤ length) 0 := by
  have hmeans : Means value (stretches p staff)
      (∀ length ∈ List.range' 1 (p.minConsecutive - 1),
        ∀ day ∈ List.range (p.days - (length + 1)), ¬ Stretch p.days row day length) 0 := by
    apply Means.flatMap_zero
    intro length _
    apply Means.map_zero
    intro day hday
    rw [List.mem_range] at hday
    exact means_stretch hrow (by omega)
  -- No maximal run is short exactly if no stretch of a smaller length is met anywhere.
  rw [le_run_iff]
  apply hmeans.congr _ rfl
  constructor
  · intro h length hpos hshort day hday
    exact h length (List.mem_range'_1.2 (by omega)) day (List.mem_range.2 (by omega))
  · intro h length hlength day hday
    rw [List.mem_range'_1] at hlength
    rw [List.mem_range] at hday
    exact h length (by omega) (by omega) day (by omega)

theorem means_dayOff (hrow : ShowsRow p staff value row) (day : Nat) :
    Means value [dayOff p staff day] (row day = 0) 0 := by
  apply means_hard
  intro c hc
  obtain ⟨x, hx, h₁⟩ := Checked.bind_eq_ok.1 hc
  have hx' := Checked.lift_eq_ok.1 hx
  split_ifs at hx' with hday
  cases hx'
  obtain ⟨hbuilt, rfl⟩ := conflict_eq_ok h₁
  refine ⟨hbuilt, rfl, ?_⟩
  show (¬ ∀ t ∈ [offTerm p staff day false], t.Holds value) ↔ _
  rw [List.forall_mem_singleton, hrow.worked_iff (by omega), Decidable.not_not]

/-- All fixed days off are off. -/
theorem means_fixedDays (hrow : ShowsRow r.params staff value row) :
    Means value (fixedDays r staff) (∀ day ∈ r.daysOff.getD staff [], row day = 0) 0 := by
  apply means_orFault
  intro plan hplan
  obtain ⟨days, hdays, h₁⟩ := Checked.bind_eq_ok.1 hplan
  cases h₁
  rw [entry_eq_ok hdays]
  exact Means.map_zero fun day _ => means_dayOff hrow day

/-- **Rules.** The constraints on a member enforce that its days obey the rules. -/
theorem means_rules (hrow : ShowsRow r.params staff value row) :
    Means value (rules r staff) (r.Obeys staff row) 0 := by
  have hmeans := ((((means_successions hrow).append (means_shiftLimits hrow)).append
    (means_windows hrow)).append (means_stretches hrow)).append (means_fixedDays hrow)
  apply hmeans.congr _ rfl
  constructor
  · rintro ⟨⟨⟨⟨hsuccessions, hlimits⟩, hlongest⟩, hshortest⟩, hdaysOff⟩
    exact ⟨hsuccessions, hlimits, hlongest, hshortest, hdaysOff⟩
  · rintro ⟨hsuccessions, hlimits, hlongest, hshortest, hdaysOff⟩
    exact ⟨⟨⟨⟨hsuccessions, hlimits⟩, hlongest⟩, hshortest⟩, hdaysOff⟩

end Rules

/-! ### Wishes -/

section Wishes

variable {r : Roster} {p : Params} {value : String → Int} {work : Schedule}

/-- The variables have the shifts of the schedule as values. -/
def Shows (p : Params) (value : String → Int) (work : Schedule) : Prop :=
  ∀ staff < p.staff, ShowsRow p staff value (work staff)

theorem ofInt_eq_soft {w : Int} (hw : 0 ≤ w) : Weight.ofInt w = .soft w.toNat :=
  if_neg (Int.not_lt.2 hw)

/-- A wish charges its weight where it is not met. -/
theorem means_wish (hwork : Shows p value work) (kind : String) (polarity : Bool) {q : Request}
    (hq : 0 ≤ q.weight) :
    Means value [wish p kind polarity q] True
      (if work q.staff q.day = q.shift ↔ polarity = true then q.weight else 0) := by
  apply means_soft
  intro c hc
  obtain ⟨x, hx, h₁⟩ := Checked.bind_eq_ok.1 hc
  obtain ⟨v, hv, h₂⟩ := Checked.bind_eq_ok.1 h₁
  obtain ⟨hstaff, hday, rfl⟩ := lookUp_eq_ok (Checked.lift_eq_ok.1 hx)
  obtain rfl := shiftValue_eq_ok hv
  obtain ⟨hbuilt, rfl⟩ := conflict_eq_ok h₂
  refine ⟨hbuilt, q.weight.toNat, ofInt_eq_soft hq, ?_⟩
  rw [Int.toNat_of_nonneg hq, Constraint.amount]
  simp only [List.forall_mem_singleton, (hwork q.staff hstaff).holds_iff hday, mul_ite, mul_one,
    mul_zero]

/-- The members who work a shift on a day are counted. -/
theorem Shows.indicatorTotal_eq (hwork : Shows p value work) {day : Nat} (hday : day < p.days)
    (shift : Nat) {terms : List IndicatorTerm} (h : coverTerms p day shift = .ok terms) :
    indicatorTotal value terms = present p work day shift := by
  rw [coverTerms_eq hday] at h
  cases h
  apply indicatorTotal_map
  intro staff hstaff
  exact hwork staff (List.mem_range.1 hstaff) day hday

/-- A bound on cover charges what is missing, or what is too much. -/
theorem means_coverBound (hwork : Shows p value work) (kind : String) (op : Comparator)
    {weight : Int} (hweight : 0 ≤ weight) (cover : List Int) {day : Nat} (hday : day < p.days)
    (shift : Nat) :
    Means value (coverBound p kind op weight cover day shift) True
      (weight * op.amount (present p work day shift) (cover.getD shift 0)) := by
  unfold coverBound
  split_ifs with hzero
  · rw [hzero, zero_mul]
    exact means_nil
  · apply means_soft
    intro c hc
    obtain ⟨rhs, hrhs, h₁⟩ := Checked.bind_eq_ok.1 hc
    obtain ⟨t, ht, h₂⟩ := Checked.bind_eq_ok.1 h₁
    obtain ⟨terms, hterms, h₃⟩ := Checked.bind_eq_ok.1 h₂
    obtain rfl := shiftValue_eq_ok ht
    obtain ⟨hbuilt, rfl⟩ := pseudoBoolean_eq_ok h₃
    refine ⟨hbuilt, weight.toNat, ofInt_eq_soft hweight, ?_⟩
    show (weight.toNat : Int) * op.amount (indicatorTotal value terms) rhs = _
    rw [Int.toNat_of_nonneg hweight, entry_eq_ok (Checked.lift_eq_ok.1 hrhs),
      hwork.indicatorTotal_eq hday shift (Checked.lift_eq_ok.1 hterms)]

/-- One row of preferred numbers for each day, and no weight that would make a wish a rule. -/
structure Proper (r : Roster) : Prop where
  /-- Each day has its preferred numbers. -/
  cover : r.cover.length = r.params.days
  /-- The weight of a missing member is not negative. -/
  underWeight : 0 ≤ r.params.underWeight
  /-- The weight of a member too many is not negative. -/
  overWeight : 0 ≤ r.params.overWeight
  /-- Wishes to work a shift have weights that are not negative. -/
  onRequests : ∀ q ∈ r.onRequests, 0 ≤ q.weight
  /-- Wishes not to work a shift have weights that are not negative. -/
  offRequests : ∀ q ∈ r.offRequests, 0 ≤ q.weight

/-- The bounds on a day charge the price of its cover. -/
theorem means_covers (hr : r.Proper) (hwork : Shows r.params value work) {cover : List Int}
    {day : Nat} (hcover : (cover, day) ∈ r.cover.zipIdx) :
    Means value (covers r.params day cover) True
      ((List.range' 1 r.params.shifts).map (r.coverPrice work day)).sum := by
  have hentry : r.cover[day]? = some cover := List.mem_zipIdx_iff_getElem?.1 hcover
  have hday : day < r.params.days := by
    rw [← hr.cover]
    exact (List.getElem?_eq_some_iff.1 hentry).1
  have hrow : r.cover.getD day [] = cover := by
    rw [List.getD_eq_getElem?_getD, hentry]
    rfl
  apply Means.flatMap_true
  intro shift _
  refine ((means_coverBound hwork "C13" .ge hr.underWeight cover hday shift).append
    (means_coverBound hwork "C14" .le hr.overWeight cover hday shift)).congr and_self_iff ?_
  rw [coverPrice, preferred, hrow]
  rfl

theorem map_zipIdx_eq {α β : Type} (as : List α) (f : Nat → β) :
    (as.zipIdx.map fun e => f e.2) = (List.range as.length).map f := by
  have hsnd : as.zipIdx.map Prod.snd = List.range as.length := by
    rw [List.zipIdx_map_snd, List.range_eq_range']
  rw [← hsnd, List.map_map]
  rfl

/-- **Plans.** The constraints of a roster enforce the rules and charge the price. -/
theorem means_plan (hr : r.Proper) (hwork : Shows r.params value work) :
    Means value r.plan (∀ staff < r.params.staff, r.Obeys staff (work staff)) (r.price work) := by
  have hrules : Means value ((List.range r.params.staff).flatMap (rules r))
      (∀ staff ∈ List.range r.params.staff, r.Obeys staff (work staff)) 0 := by
    apply Means.flatMap_zero
    intro staff hstaff
    exact means_rules (hwork staff (List.mem_range.1 hstaff))
  have hon := Means.map_true fun q hq => means_wish hwork "C11" false (hr.onRequests q hq)
  have hoff := Means.map_true fun q hq => means_wish hwork "C12" true (hr.offRequests q hq)
  have hcovers : Means value (r.cover.zipIdx.flatMap fun e => covers r.params e.2 e.1) True
      (r.cover.zipIdx.map fun e =>
        ((List.range' 1 r.params.shifts).map (r.coverPrice work e.2)).sum).sum := by
    apply Means.flatMap_true
    intro e he
    exact means_covers hr hwork he
  -- Wishes enforce nothing and rules charge nothing, so one side of each part drops out.
  refine (((hrules.append hon).append hoff).append hcovers).congr ?_ ?_
  · simp
  · rw [price, ← hr.cover, ← map_zipIdx_eq]
    simp

end Wishes

/-! ### The model -/

section Model

variable {r : Roster} {p : Params} {m : Model} {work : Schedule}

/-- No two days have the same variable. -/
theorem variableName_injective :
    Function.Injective fun place : Nat × Nat => variableName place.1 place.2 := by
  rintro ⟨i, d⟩ ⟨j, e⟩ h
  have hlist := congrArg String.toList h
  have hparts : (two i).toList ++ '_' :: 'd' :: (two d).toList =
      (two j).toList ++ '_' :: 'd' :: (two e).toList := by
    simpa [variableName] using hlist
  -- The numbers have no underscores, so the one before the day is where the member ends.
  have hi : '_' ∉ (two i).toList := Names.underscore_notMem_padded 2 i
  have hd : '_' ∉ 'd' :: (two d).toList := by
    simpa [two] using Names.underscore_notMem_padded 2 d
  obtain ⟨hstaff, -, hday⟩ := (List.append_cons_inj_of_notMem hi hd).1 hparts
  have hstaff' := Names.padded_injective (String.toList_inj.1 hstaff)
  have hday' := Names.padded_injective (String.toList_inj.1 (List.cons.inj hday).2)
  exact Prod.ext hstaff' hday'

theorem mem_vars {x : Variable} :
    x ∈ vars p ↔ ∃ staff < p.staff, ∃ day < p.days, x = dayVariable p staff day := by
  simp [vars, eq_comm]

/-- A model that is built has the plan as its constraints. -/
theorem model_eq_ok (h : r.model = .ok m) :
    r.plan = m.constraints.map .ok ∧ m.vars = vars r.params ∧
      ((∀ c ∈ m.constraints, c.Built) → m.Built) := by
  have hregister : r.register .empty = .ok () m := Step.build_eq_ok.1 h
  unfold register at hregister
  split_ifs at hregister
  · cases hregister
  obtain ⟨_, start, hstart, hplan⟩ := Step.bind_eq_ok.1 hregister
  obtain ⟨hvars, hnone, hbuilt⟩ := addVariables_eq_ok .empty (Step.mapError_eq_ok.1 hstart)
  obtain ⟨cs, hcs, hvars', hcons, hbuilt'⟩ := addPlanned_eq_ok hbuilt.wellFormed.toIndexed hplan
  rw [hnone] at hcons
  obtain rfl : m.constraints = cs := hcons
  exact ⟨hcs, hvars'.trans hvars, hbuilt' hbuilt⟩

/-- The assignment gives every variable of the roster its shift. -/
def Assigns (p : Params) (a : Assignment) (work : Schedule) : Prop :=
  ∀ staff < p.staff, ∀ day < p.days, a (variableName staff day) = some (work staff day : Int)

/-- For every schedule there is an assignment that shows it. -/
theorem exists_assigns (p : Params) (work : Schedule) : ∃ a, Assigns p a work := by
  let name : Nat × Nat → String := fun place => variableName place.1 place.2
  refine ⟨Function.extend name (fun place => some (work place.1 place.2 : Int)) fun _ => none, ?_⟩
  intro staff _ day _
  exact variableName_injective.extend_apply _ _ (staff, day)

/-- **The model means the rules.** For every schedule of a roster that has a model: no hard
constraint is violated exactly if the days of every member obey the rules, and the weighted sum of
the soft violations is the price of the wishes that are not fulfilled. -/
theorem model_means_rules (hr : r.Proper) (hm : r.model = .ok m)
    (hwork : ∀ staff < r.params.staff, ∀ day < r.params.days, work staff day ≤ r.params.shifts) :
    (∃ a, Assigns r.params a work) ∧ ∀ a, Assigns r.params a work →
      ∃ vs, m.evaluate a = .ok vs ∧
        (Model.hardCount vs = 0 ↔ ∀ staff < r.params.staff, r.Obeys staff (work staff)) ∧
        Report.costOf vs = r.price work ∧
        (Word.InRange (r.price work) → m.score a = .ok (r.price work, Model.hardCount vs)) := by
  refine ⟨exists_assigns r.params work, fun a ha => ?_⟩
  -- Names outside the roster may have no value; no constraint of the model asks for it.
  let value : String → Int := fun name => (a name).getD 0
  have hvalue : Shows r.params value work := by
    intro staff hstaff day hday
    show (a (variableName staff day)).getD 0 = work staff day
    rw [ha staff hstaff day hday]
    rfl
  obtain ⟨hplan, hvars, hbuilt⟩ := model_eq_ok hm
  obtain ⟨hall, hrule, hprice⟩ := means_plan hr hvalue m.constraints hplan
  have hget : ∀ x ∈ m.vars, value x.name ∈ x.domain ∧ a x.name = some (value x.name) := by
    rw [hvars]
    intro x hx
    obtain ⟨staff, hstaff, day, hday, rfl⟩ := mem_vars.1 hx
    have hle := hwork staff hstaff day hday
    show value (variableName staff day) ∈ Ascending.range 0 r.params.shifts ∧
      a (variableName staff day) = some (value (variableName staff day))
    rw [hvalue staff hstaff day hday, Ascending.mem_range]
    exact ⟨by omega, ha staff hstaff day hday⟩
  have heval := (hbuilt hall).wellFormed.evaluate_eq_ok (fun x hx => (hget x hx).1)
    fun x hx => (hget x hx).2
  have hcost : Report.costOf (m.constraints.map (·.violated value)) = r.price work := by
    rw [← hprice, Report.costOf, List.map_map]
    rfl
  refine ⟨_, heval, Model.hardCount_eq_zero_iff.trans hrule, hcost, fun hfits => ?_⟩
  apply ((Report.objective?_iff_score heval).1 (r.price work)).1
  rw [Report.objective?_eq_costOf heval, hcost, Word.fit?_of_inRange hfits]

end Model

/-- Three days of one member, who is not to work for one day only. -/
def threeDays : Roster where
  params := ⟨1, 3, 1, 2, 2, 1, 3, 100, 1⟩
  forbidden := [[], []]
  maxShifts := [[3, 2]]
  daysOff := [[0]]
  onRequests := [⟨0, 1, 1, 3⟩]
  offRequests := [⟨0, 2, 1, 2⟩]
  cover := [[0, 1], [0, 1], [0, 1]]

/-- Two working days after a day off. -/
def twoWorked : Schedule := fun _ day => [0, 1, 1].getD day 0

/-- No hard constraint is violated, so the rules are obeyed; a member is missing on the day off, and
a wish not to work is not fulfilled. -/
theorem model_means_rules_three : threeDays.Obeys 0 (twoWorked 0) ∧
    ∃ m vs, threeDays.model = .ok m ∧
      m.evaluate (fun name => some (if name = "x_i00_d00" then 0 else 1)) = .ok vs ∧
      Report.costOf vs = 102 := by
  have hrun : ∃ m vs, threeDays.model = .ok m ∧
      m.evaluate (fun name => some (if name = "x_i00_d00" then 0 else 1)) = .ok vs ∧
      Model.hardCount vs = 0 := ⟨_, _, rfl, rfl, rfl⟩
  obtain ⟨m, vs, hm, heval, hcount⟩ := hrun
  have hproper : threeDays.Proper := ⟨rfl, by decide, by decide, by decide, by decide⟩
  have hwork : ∀ staff < threeDays.params.staff, ∀ day < threeDays.params.days,
      twoWorked staff day ≤ threeDays.params.shifts := by
    decide
  have hassigns : Assigns threeDays.params (fun name => some (if name = "x_i00_d00" then 0 else 1))
      twoWorked := by
    unfold Assigns
    decide
  obtain ⟨vs', heval', hrules, hcost, -⟩ :=
    (model_means_rules hproper hm hwork).2 _ hassigns
  obtain rfl : vs = vs' := Except.ok.inj (heval.symm.trans heval')
  refine ⟨hrules.1 hcount 0 (by decide), m, vs, hm, heval, ?_⟩
  rw [hcost]
  decide

end WeightedCsp.Roster

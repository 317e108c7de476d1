import Mathlib
import WeightedCsp.Proofs.Random.Stream
import WeightedCsp.Proofs.Registry
import WeightedCsp.Proofs.Roster.Labels
import WeightedCsp.Proofs.Roster.Meaning

/-!
# Rosters that are drawn can be built

A plan can be built if its constraints pass the checks of their builders and have the names of
different labels (`Builds`).  The lemmas follow the plan: each function that plans constraints has
one about its own, which says that the members, days and shifts it asks for exist and that its
arithmetic fits.  So a well-formed roster has a model (`WellFormed.exists_model`).

To have every day off obeys all rules.  So every roster that is drawn has a model in which this
violates no hard constraint (`random_feasible`).
-/

namespace WeightedCsp

/-! ### Builders that succeed -/

namespace Constraint

variable {w : Weight} {rhs lo hi : Int}

/-- The arithmetic of a comparison fits if the greatest amounts by which it is missed do, also
times their price. -/
theorem arithmeticFits_of_fits (hfits : Comparator.Fits rhs lo hi) (hle : lo ≤ hi)
    (hprice : max w.toInt 0 *
      max (Comparator.gt.amount lo rhs) (Comparator.lt.amount hi rhs) ≤ Word.greatest) :
    arithmeticFits w rhs (some (lo, hi)) = true := by
  have hlo := fun op => Comparator.violation?_eq_some op hfits (Int.le_refl lo) hle
  have hhi := fun op => Comparator.violation?_eq_some op hfits hle (Int.le_refl hi)
  have hnonneg : 0 ≤ max w.toInt 0 *
      max (Comparator.gt.amount lo rhs) (Comparator.lt.amount hi rhs) :=
    Int.mul_nonneg (Int.le_max_right _ _)
      (Int.le_trans (Comparator.amount_nonneg .gt lo rhs) (Int.le_max_left _ _))
  have hrange : Word.InRange (max w.toInt 0 *
      max (Comparator.gt.amount lo rhs) (Comparator.lt.amount hi rhs)) :=
    ⟨Int.le_trans (by decide) hnonneg, hprice⟩
  simp [arithmeticFits, Comparator.maxViolation?, hlo, hhi, Word.mul?, Word.fit?_of_inRange hrange]

theorem checkValues_of_mem {es : List (Variable × Int)} (h : ∀ e ∈ es, e.2 ∈ e.1.domain) :
    checkValues es = .ok () := by
  induction es with
  | nil => rfl
  | cons e es ih =>
    obtain ⟨he, hes⟩ := List.forall_mem_cons.1 h
    rw [checkValues, if_pos he, ih hes]

/-- A conflict over values of its domains, with a valid name, can be built. -/
theorem conflict_of_valid {name : String} (hname : Identifier.isValid name)
    {terms : List Predicate} (hterms : ∀ t ∈ terms, t.value ∈ t.var.domain) :
    conflict name w terms = .ok ⟨name, w, .conflict terms⟩ := by
  rw [conflict, Identifier.check, if_pos hname, checkValues_of_mem (List.forall_mem_map.2 hterms)]
  rfl

/-- So can a bound on indicators, if its numbers fit. -/
theorem pseudoBoolean_of_valid {name : String} (hname : Identifier.isValid name)
    {terms : List IndicatorTerm} (hterms : ∀ t ∈ terms, t.value ∈ t.var.domain) (op : Comparator)
    (hfits : arithmeticFits w rhs (indicatorRange? terms) = true) :
    pseudoBoolean name w terms (some op) rhs = .ok ⟨name, w, .pseudoBoolean terms op rhs⟩ := by
  rw [pseudoBoolean, Identifier.check, if_pos hname,
    checkValues_of_mem (List.forall_mem_map.2 hterms), checkArithmetic, if_pos hfits]
  rfl

end Constraint

/-- A sum of indicators that count one each ranges up to their number. -/
theorem addRanges?_units {α : Type} (as : List α) {n : Nat}
    (h : ((n + as.length : Nat) : Int) ≤ Word.greatest) (x : α → Variable) (v : Int) :
    addRanges? (0, n) ((as.map fun a => (⟨1, x a, v⟩ : IndicatorTerm)).map fun t => some t.range) =
      some (0, ((n + as.length : Nat) : Int)) := by
  induction as generalizing n with
  | nil => rfl
  | cons a as ih =>
    have hlength : n + (a :: as).length = n + 1 + as.length := by
      rw [List.length_cons]
      omega
    rw [hlength] at h ⊢
    have hhead : (⟨1, x a, v⟩ : IndicatorTerm).range = (0, 1) := rfl
    have hzero : Word.add? 0 0 = some 0 := rfl
    have hnext : Word.add? n 1 = some ((n + 1 : Nat) : Int) := by
      apply Word.fit?_of_inRange
      unfold Word.InRange Word.least Word.greatest at *
      omega
    rw [List.map_cons, List.map_cons, addRanges?]
    simp only [hhead, hzero, hnext]
    exact ih h

/-- Indicators with unit coefficients sum up to at most their number. -/
theorem indicatorRange?_units {α : Type} (as : List α) (h : (as.length : Int) ≤ Word.greatest)
    (x : α → Variable) (v : Int) :
    indicatorRange? (as.map fun a => ⟨1, x a, v⟩) = some (0, (as.length : Int)) := by
  have hunits := addRanges?_units as (n := 0) (by simpa using h) x v
  rw [Nat.zero_add] at hunits
  exact hunits

namespace Roster

/-! ### Registration -/

/-- Variables with different valid names are all entered. -/
theorem addVariables_of_nodup {known xs : List Variable}
    (hnodup : ((known ++ xs).map (·.name)).Nodup) (hvalid : ∀ x ∈ xs, Identifier.isValid x.name) :
    addVariables xs (.ofLists known []) = .ok () (.ofLists (known ++ xs) []) := by
  induction xs generalizing known with
  | nil =>
    rw [List.append_nil]
    rfl
  | cons x xs ih =>
    obtain ⟨hx, hxs⟩ := List.forall_mem_cons.1 hvalid
    have hfresh : x.name ∉ known.map (·.name) := notMem_of_nodup_append hnodup
    have hknown : (known.map (·.name)).Nodup := by
      rw [List.map_append] at hnodup
      exact (List.nodup_append.1 hnodup).1
    have hindexed : (Model.ofLists known []).Indexed :=
      Model.indexed_ofLists hknown List.nodup_nil
    have hnew : Model.newVariable x.name x.domain (.ofLists known []) =
        .ok x (.ofLists (known ++ [x]) []) := by
      rw [hindexed.newVariable_apply, if_pos hx, Model.withVariable_ofLists]
      exact if_neg hfresh
    rw [List.append_cons] at hnodup ⊢
    exact Step.bind_eq_ok.2 ⟨_, _, hnew, ih hnodup hxs⟩

/-- Constraints with different names over these variables are all entered. -/
theorem addPlanned_of_nodup {xs : List Variable} (known : List Constraint) {cs : List Constraint}
    (hvars : (xs.map (·.name)).Nodup) (hnodup : ((known ++ cs).map (·.name)).Nodup)
    (hdeclared : ∀ c ∈ cs, ∀ x ∈ c.vars, x ∈ xs) :
    addPlanned (cs.map .ok) (.ofLists xs known) = .ok () (.ofLists xs (known ++ cs)) := by
  induction cs generalizing known with
  | nil =>
    rw [List.append_nil]
    rfl
  | cons c cs ih =>
    obtain ⟨hc, hcs⟩ := List.forall_mem_cons.1 hdeclared
    have hfresh : c.name ∉ known.map (·.name) := notMem_of_nodup_append hnodup
    have hknown : (known.map (·.name)).Nodup := by
      rw [List.map_append] at hnodup
      exact (List.nodup_append.1 hnodup).1
    have hadd : Model.addConstraint c (.ofLists xs known) =
        .ok () (.ofLists xs (known ++ [c])) :=
      (Model.indexed_ofLists hvars hknown).addConstraint_eq_ok_iff.2
        ⟨hfresh, hc, (Model.withConstraint_ofLists xs known c).symm⟩
    rw [List.append_cons] at hnodup ⊢
    exact Step.bind_eq_ok.2 ⟨_, _, Step.except_eq_ok.2 ⟨rfl, rfl⟩,
      Step.bind_eq_ok.2 ⟨_, _, Step.mapError_eq_ok.2 hadd, ih _ hnodup hcs⟩⟩

/-! ### Plans that can be built -/

/-- All constraints of the plan can be built, they have the names of some of the labels in order,
and they speak of variables of the roster. -/
def Builds (p : Params) (plan : List Planned) (ls : List Label) : Prop :=
  ∃ cs : List Constraint, plan = cs.map .ok ∧ (cs.map (·.name)).Sublist (ls.map Label.name) ∧
    ∀ c ∈ cs, ∀ x ∈ c.vars, x ∈ vars p

section Builds

variable {p : Params} {plan₁ plan₂ : List Planned} {ls₁ ls₂ : List Label}

theorem builds_nil (p : Params) (ls : List Label) : Builds p [] ls :=
  ⟨[], rfl, List.nil_sublist _, List.forall_mem_nil _⟩

theorem builds_singleton {x : Planned} {l : Label} {c : Constraint} (hx : x = .ok c)
    (hname : c.name = l.name) (hvars : ∀ y ∈ c.vars, y ∈ vars p) : Builds p [x] [l] := by
  refine ⟨[c], by rw [hx]; rfl, ?_, List.forall_mem_singleton.2 hvars⟩
  rw [List.map_singleton, List.map_singleton, hname]

/-- Plans with their labels are built one after the other. -/
theorem Builds.append (h₁ : Builds p plan₁ ls₁) (h₂ : Builds p plan₂ ls₂) :
    Builds p (plan₁ ++ plan₂) (ls₁ ++ ls₂) := by
  obtain ⟨cs₁, rfl, hnames₁, hvars₁⟩ := h₁
  obtain ⟨cs₂, rfl, hnames₂, hvars₂⟩ := h₂
  refine ⟨cs₁ ++ cs₂, List.map_append.symm, ?_, List.forall_mem_append.2 ⟨hvars₁, hvars₂⟩⟩
  rw [List.map_append, List.map_append]
  exact hnames₁.append hnames₂

/-- A plan for each element is built if each of them is. -/
theorem Builds.flatMap {α : Type} {as : List α} {f : α → List Planned} {g : α → List Label}
    (h : ∀ a ∈ as, Builds p (f a) (g a)) : Builds p (as.flatMap f) (as.flatMap g) := by
  induction as with
  | nil => exact builds_nil p []
  | cons a as ih =>
    obtain ⟨ha, has⟩ := List.forall_mem_cons.1 h
    rw [List.flatMap_cons, List.flatMap_cons]
    exact ha.append (ih has)

theorem Builds.map {α : Type} {as : List α} {f : α → Planned} {g : α → Label}
    (h : ∀ a ∈ as, Builds p [f a] [g a]) : Builds p (as.map f) (as.map g) := by
  rw [List.map_eq_flatMap, List.map_eq_flatMap]
  exact Builds.flatMap h

/-- The variable belongs to the roster, and the value is one of its shifts. -/
def OfRoster (p : Params) (x : Variable) (v : Int) : Prop := x ∈ vars p ∧ v ∈ x.domain

theorem ofRoster_dayVariable {staff day shift : Nat} (hstaff : staff < p.staff)
    (hday : day < p.days) (hshift : shift ≤ p.shifts) :
    OfRoster p (dayVariable p staff day) shift := by
  refine ⟨mem_vars.2 ⟨staff, hstaff, day, hday, rfl⟩, ?_⟩
  show (shift : Int) ∈ Ascending.range 0 p.shifts
  rw [Ascending.mem_range]
  omega

/-- A conflict over cells of the roster is built. -/
theorem builds_conflict {name : String} {l : Label} (hname : name = l.name) (w : Weight)
    {terms : List Predicate} (hterms : ∀ t ∈ terms, OfRoster p t.var t.value) :
    Builds p [building (Constraint.conflict name w terms)] [l] := by
  have hvalid : Identifier.isValid name := hname ▸ l.isValid_name
  have hbuilt := Constraint.conflict_of_valid (w := w) hvalid fun t ht => (hterms t ht).2
  apply builds_singleton (building_eq_ok.2 hbuilt) hname
  exact List.forall_mem_map.2 fun t ht => (hterms t ht).1

/-- A count can be compared with a number that it can reach. -/
theorem builds_count {α : Type} {name : String} {l : Label} (hname : name = l.name) {w : Weight}
    {as : List α} {x : α → Variable} {v : Int} (hvars : ∀ a ∈ as, OfRoster p (x a) v)
    (op : Comparator) {rhs : Int} (hlength : (as.length : Int) ≤ Word.greatest) (hnonneg : 0 ≤ rhs)
    (hle : rhs ≤ as.length) (hfits : Comparator.Fits rhs 0 as.length)
    (hprice : max w.toInt 0 * (as.length + 1) ≤ Word.greatest) :
    Builds p
      [building (Constraint.pseudoBoolean name w (as.map fun a => ⟨1, x a, v⟩) (some op) rhs)]
      [l] := by
  have hvalid : Identifier.isValid name := hname ▸ l.isValid_name
  -- A strict comparison is missed by one more than the distance.
  have hmost : max (Comparator.gt.amount 0 rhs) (Comparator.lt.amount as.length rhs) ≤
      as.length + 1 := by
    simp only [Comparator.amount]
    omega
  have harith : Constraint.arithmeticFits w rhs (indicatorRange? (as.map fun a => ⟨1, x a, v⟩)) =
      true := by
    rw [indicatorRange?_units as hlength]
    apply Constraint.arithmeticFits_of_fits hfits (Int.natCast_nonneg _)
    exact Int.le_trans (Int.mul_le_mul_of_nonneg_left hmost (Int.le_max_right _ _)) hprice
  have hbuilt := Constraint.pseudoBoolean_of_valid hvalid
    (List.forall_mem_map.2 fun a ha => (hvars a ha).2) op harith
  apply builds_singleton (building_eq_ok.2 hbuilt) hname
  show ∀ y ∈ List.map _ (List.map _ as), y ∈ vars p
  rw [List.map_map]
  exact List.forall_mem_map.2 fun a ha => (hvars a ha).1

end Builds

/-! ### Rules -/

section Rules

variable {r : Roster} {p : Params} {staff : Nat}

theorem shiftValue_of_le (hp : p.Fits) {shift : Nat} (h : shift ≤ p.shifts) :
    shiftValue shift = .ok (shift : Int) := by
  have hfits := hp.shifts
  rw [shiftValue, if_pos (by omega)]

theorem entry_of_getElem? {α : Type} {table : List α} {place : Nat} {a : α}
    (h : table[place]? = some a) : Checked.entry table place = .ok a := by
  rw [Checked.entry, h]

theorem builds_succession (hp : p.Fits) (hstaff : staff < p.staff) {day shift next : Nat}
    (hday : day + 1 < p.days) (hshift : shift ≤ p.shifts) (hnext : next ≤ p.shifts) :
    Builds p [succession p staff day shift next] [Label.succession staff day shift next] := by
  rw [succession, shiftValue_of_le hp hshift, Checked.ok_bind, shiftValue_of_le hp hnext,
    Checked.ok_bind]
  apply builds_conflict (Label.text_succession staff day shift next)
  refine List.forall_mem_cons.2 ⟨?_, List.forall_mem_singleton.2 ?_⟩
  · exact ofRoster_dayVariable hstaff (by omega) hshift
  · exact ofRoster_dayVariable hstaff hday hnext

/-- The forbidden successions of a member are built. -/
theorem builds_successions (hr : r.WellFormed) (hp : r.params.Fits)
    (hstaff : staff < r.params.staff) :
    Builds r.params (successions r staff) (successionLabels r staff) := by
  apply Builds.flatMap
  intro day hday
  rw [List.mem_range] at hday
  apply Builds.flatMap
  intro e he
  obtain ⟨hshift, -, hnexts⟩ := hr.forbidden e he
  apply Builds.map
  intro next hnext
  exact builds_succession hp hstaff (by omega) hshift (hnexts next hnext).2

theorem builds_atMost (hp : p.Fits) (hstaff : staff < p.staff) {shift max : Nat}
    (hshift : shift ≤ p.shifts) (hhalf : p.days / 2 ≤ max) (hmax : max < p.days) :
    Builds p [atMost p staff shift max] [Label.limit staff shift] := by
  have hdays := hp.days
  have hlength : (List.range p.days).length = p.days := List.length_range
  rw [atMost, shiftValue_of_le hp hshift, Checked.ok_bind]
  apply builds_count (Label.text_limit staff shift)
  · intro day hday
    exact ofRoster_dayVariable hstaff (List.mem_range.1 hday) hshift
  · rw [hlength]
    exact hdays
  · exact Int.natCast_nonneg max
  · rw [hlength]
    omega
  · -- Half of the days are allowed, so those beyond the limit can be counted with one more.
    rw [hlength]
    unfold Word.greatest at hdays
    constructor <;> unfold Word.greatest <;> omega
  · rw [Weight.toInt, Int.max_eq_right (by decide), Int.zero_mul]
    decide

theorem builds_shiftLimits (hr : r.WellFormed) (hp : r.params.Fits)
    (hstaff : staff < r.params.staff) :
    Builds r.params (shiftLimits r staff) (limitLabels r.params staff) := by
  rw [limitLabels, List.map_eq_flatMap]
  apply Builds.flatMap
  intro shift hshift
  rw [List.mem_range'_1] at hshift
  have hmember : staff < r.maxShifts.length := hr.members.symm ▸ hstaff
  obtain ⟨hlength, hhalf⟩ := hr.limits _ (List.getElem_mem hmember)
  have hshift' : shift < r.maxShifts[staff].length := by omega
  rw [shiftLimit, entry_of_getElem? (List.getElem?_eq_getElem hmember), Checked.ok_bind,
    entry_of_getElem? (List.getElem?_eq_getElem hshift'), Checked.ok_bind]
  show Builds r.params (if r.params.days ≤ r.maxShifts[staff][shift] then [] else _) _
  split_ifs with hall
  · exact builds_nil _ _
  · exact builds_atMost hp hstaff (by omega) (hhalf _ (List.getElem_mem hshift')) (by omega)

theorem ofRoster_offTerm (hstaff : staff < p.staff) {day : Nat} (hday : day < p.days) (off : Bool) :
    OfRoster p (offTerm p staff day off).var (offTerm p staff day off).value :=
  ofRoster_dayVariable hstaff hday (Nat.zero_le p.shifts)

theorem ofRoster_offTerms (hstaff : staff < p.staff) {first length : Nat}
    (hinside : first + length ≤ p.days) :
    ∀ t ∈ (List.range' first length).map (fun day => offTerm p staff day false),
      OfRoster p t.var t.value := by
  refine List.forall_mem_map.2 fun day hday => ?_
  obtain ⟨-, hlast⟩ := List.mem_range'_1.1 hday
  exact ofRoster_offTerm hstaff (by omega) false

theorem builds_window (hstaff : staff < p.staff) {length first : Nat}
    (hinside : first + length ≤ p.days) :
    Builds p [window p staff length first] [Label.window staff first] :=
  builds_conflict (Label.text_window staff first) _ (ofRoster_offTerms hstaff hinside)

theorem builds_windows (hp : p.Fits) (hstaff : staff < p.staff) :
    Builds p (windows p staff) (windowLabels p staff) := by
  have hdays : p.days + 1 < Word.sizeLimit := by
    have := hp.days
    unfold Word.greatest at this
    unfold Word.sizeLimit
    omega
  rw [windows, Word.addSize_of_lt hp.window, Checked.ok_bind, Word.addSize_of_lt hdays,
    Checked.ok_bind]
  apply Builds.map
  intro first hfirst
  rw [List.mem_range] at hfirst
  exact builds_window hstaff (by omega)

theorem builds_stretch (hstaff : staff < p.staff) {length day : Nat}
    (hinside : day + length + 1 < p.days) :
    Builds p [stretch p staff length day] [Label.stretch staff length day] := by
  apply builds_conflict (Label.text_stretch staff length day)
  refine List.forall_mem_append.2 ⟨List.forall_mem_cons.2 ⟨?_, ?_⟩, List.forall_mem_singleton.2 ?_⟩
  · exact ofRoster_offTerm hstaff (by omega) true
  · exact ofRoster_offTerms hstaff (by omega)
  · exact ofRoster_offTerm hstaff hinside true

theorem builds_stretches (hstaff : staff < p.staff) :
    Builds p (stretches p staff) (stretchLabels p staff) := by
  apply Builds.flatMap
  intro length _
  apply Builds.map
  intro day hday
  rw [List.mem_range] at hday
  exact builds_stretch hstaff (by omega)

theorem builds_dayOff (hstaff : staff < p.staff) {day : Nat} (hday : day < p.days) :
    Builds p [dayOff p staff day] [Label.dayOff staff day] := by
  rw [dayOff, if_neg (by omega), Checked.lift_ok, Checked.ok_bind]
  apply builds_conflict (Label.text_dayOff staff day)
  exact List.forall_mem_singleton.2 (ofRoster_offTerm hstaff hday false)

/-- The days off of a member are built. -/
theorem builds_fixedDays (hr : r.WellFormed) (hstaff : staff < r.params.staff) :
    Builds r.params (fixedDays r staff) (dayOffLabels r staff) := by
  have hmember : staff < r.daysOff.length := hr.restful.symm ▸ hstaff
  have hrow : r.daysOff[staff]? = some r.daysOff[staff] := List.getElem?_eq_getElem hmember
  rw [fixedDays, entry_of_getElem? hrow, Checked.ok_bind, dayOffLabels,
    List.getD_eq_getElem?_getD, hrow]
  apply Builds.map
  intro day hday
  exact builds_dayOff hstaff ((hr.daysOff _ (List.getElem_mem hmember)).2 day hday)

/-- **Rules.** All constraints of a member are built. -/
theorem builds_rules (hr : r.WellFormed) (hp : r.params.Fits) (hstaff : staff < r.params.staff) :
    Builds r.params (rules r staff) (ruleLabels r staff) :=
  ((((builds_successions hr hp hstaff).append (builds_shiftLimits hr hp hstaff)).append
    (builds_windows hp hstaff)).append (builds_stretches hstaff)).append
    (builds_fixedDays hr hstaff)

end Rules

/-! ### Wishes -/

section Wishes

variable {r : Roster} {p : Params}

theorem builds_wish (hp : p.Fits) {kind : String} {rule : Nat} (hkind : kind = "C" ++ two rule)
    (polarity : Bool) {q : Request} (hq : q.Inside p) :
    Builds p [wish p kind polarity q] [Label.wish rule q] := by
  rw [wish, lookUp_of_lt hq.staff hq.day, Checked.lift_ok, Checked.ok_bind,
    shiftValue_of_le hp hq.shift, Checked.ok_bind]
  apply builds_conflict (Label.text_wish hkind q)
  exact List.forall_mem_singleton.2 (ofRoster_dayVariable hq.staff hq.day hq.shift)

/-- A bound on cover is built, as its price fits with the number of staff. -/
theorem builds_coverBound (hp : p.Fits) {kind : String} {rule : Nat}
    (hkind : kind = "C" ++ two rule) (op : Comparator) {weight : Int} (hweight : 0 ≤ weight)
    (hprice : weight * (p.staff + 1) ≤ Word.greatest) {cover : List Int} {day shift : Nat}
    (hday : day < p.days) (hshift : shift ≤ p.shifts) (hlength : cover.length = p.shifts + 1)
    (hcover : ∀ n ∈ cover, 0 ≤ n ∧ n ≤ p.staff) :
    Builds p (coverBound p kind op weight cover day shift) [Label.cover rule day shift] := by
  unfold coverBound
  split_ifs with hzero
  · exact builds_nil p _
  · have hentry : shift < cover.length := by omega
    obtain ⟨hnonneg, hle⟩ := hcover _ (List.getElem_mem hentry)
    -- The weight is one at least, so what fits times the weight fits without it.
    have hstaff : (p.staff : Int) + 1 ≤ Word.greatest := by
      have hone : 1 * ((p.staff : Int) + 1) ≤ weight * (p.staff + 1) :=
        Int.mul_le_mul_of_nonneg_right (by omega) (by omega)
      omega
    rw [entry_of_getElem? (List.getElem?_eq_getElem hentry), Checked.lift_ok, Checked.ok_bind,
      shiftValue_of_le hp hshift, Checked.ok_bind, coverTerms_eq hday, Checked.lift_ok,
      Checked.ok_bind]
    have hmembers : (List.range p.staff).length = p.staff := List.length_range
    apply builds_count (Label.text_cover hkind day shift)
    · intro staff hstaff
      exact ofRoster_dayVariable (List.mem_range.1 hstaff) hday hshift
    · rw [hmembers]
      omega
    · exact hnonneg
    · rw [hmembers]
      exact hle
    · rw [hmembers]
      constructor <;> omega
    · rw [hmembers, ofInt_eq_soft hweight]
      show max (weight.toNat : Int) 0 * _ ≤ _
      rw [Int.toNat_of_nonneg hweight, Int.max_eq_left hweight]
      exact hprice

/-- The bounds on cover of a day are built. -/
theorem builds_covers (hr : r.WellFormed) (hp : r.params.Fits) {e : List Int × Nat}
    (he : e ∈ r.cover.zipIdx) :
    Builds r.params (covers r.params e.2 e.1) (coverLabels r.params e.2) := by
  have hentry : r.cover[e.2]? = some e.1 := List.mem_zipIdx_iff_getElem?.1 he
  have hday : e.2 < r.params.days := by
    rw [← hr.cover]
    exact (List.getElem?_eq_some_iff.1 hentry).1
  obtain ⟨hlength, hcover⟩ := hr.preferred e.1 (List.mem_of_getElem? hentry)
  apply Builds.flatMap
  intro shift hshift
  rw [List.mem_range'_1] at hshift
  have hshift' : shift ≤ r.params.shifts := by omega
  have hkind₁₃ : "C13" = "C" ++ two 13 := by decide
  have hkind₁₄ : "C14" = "C" ++ two 14 := by decide
  have hunder := builds_coverBound hp hkind₁₃ .ge hp.underWeight hp.underPrice hday hshift' hlength
    hcover
  have hover := builds_coverBound hp hkind₁₄ .le hp.overWeight hp.overPrice hday hshift' hlength
    hcover
  exact hunder.append hover

/-- **Plans.** All constraints of a well-formed roster can be built. -/
theorem builds_plan (hr : r.WellFormed) (hp : r.params.Fits) :
    Builds r.params r.plan (labels r) := by
  have hrules : Builds r.params ((List.range r.params.staff).flatMap (rules r))
      ((List.range r.params.staff).flatMap (ruleLabels r)) :=
    Builds.flatMap fun staff hstaff => builds_rules hr hp (List.mem_range.1 hstaff)
  have hon : Builds r.params (r.onRequests.map (wish r.params "C11" false))
      (r.onRequests.map (Label.wish 11)) :=
    Builds.map fun q hq => builds_wish hp (by decide) false (hr.onRequests q hq)
  have hoff : Builds r.params (r.offRequests.map (wish r.params "C12" true))
      (r.offRequests.map (Label.wish 12)) :=
    Builds.map fun q hq => builds_wish hp (by decide) true (hr.offRequests q hq)
  exact ((hrules.append hon).append hoff).append (Builds.flatMap fun e he => builds_covers hr hp he)

end Wishes

/-! ### Models -/

section Models

variable {r : Roster} {p : Params}

theorem vars_eq_map (p : Params) :
    vars p = (memberDays p).map fun place => dayVariable p place.1 place.2 := by
  rw [vars, memberDays, List.map_flatMap]
  apply List.flatMap_congr
  intro staff _
  rw [List.map_map]
  rfl

theorem nodup_names_vars (p : Params) : ((vars p).map (·.name)).Nodup := by
  rw [vars_eq_map, List.map_map]
  exact (nodup_memberDays p).map variableName_injective

/-- **Models.** A well-formed roster has a model. -/
theorem WellFormed.exists_model (hr : r.WellFormed) (hp : r.params.Fits) :
    ∃ m, r.model = .ok m := by
  obtain ⟨cs, hplan, hnames, hvars⟩ := builds_plan hr hp
  have hvalid : ∀ x ∈ vars r.params, Identifier.isValid x.name := by
    intro x hx
    obtain ⟨staff, -, day, -, rfl⟩ := mem_vars.1 hx
    exact isValid_variableName staff day
  have hstart : addVariables (vars r.params) .empty = .ok () (.ofLists (vars r.params) []) :=
    addVariables_of_nodup (nodup_names_vars r.params) hvalid
  -- Limits that allow all days and bounds without weight are left out, so not every label is used.
  have hnodup : (cs.map (·.name)).Nodup :=
    (hr.nodup_labels.map Label.name_injective).sublist hnames
  have hrest := addPlanned_of_nodup [] (nodup_names_vars r.params) hnodup hvars
  rw [← hplan] at hrest
  have hshifts := hp.shifts
  refine ⟨.ofLists (vars r.params) cs, Step.build_eq_ok.2 ?_⟩
  unfold register
  rw [if_neg (by omega)]
  exact Step.bind_eq_ok.2 ⟨(), _, Step.mapError_eq_ok.2 hstart, hrest⟩

/-- **Days off.** To have every day off obeys the rules, whatever they are. -/
theorem WellFormed.obeys_off (hr : r.WellFormed) (staff : Nat) : r.Obeys staff fun _ => 0 where
  successions day _ := by
    rw [← notMem_getD_iff]
    rintro e he next hnext ⟨-, hzero⟩
    have hpos := ((hr.forbidden e he).2.2 next hnext).1
    omega
  limits shift hpos _ := by
    have hnever : timesWorked r.params.days (fun _ => 0) shift = 0 := by
      apply List.countP_eq_zero.2
      intro day _
      simp only [decide_eq_true_eq]
      omega
    rw [hnever]
    exact Nat.zero_le _
  longest first length hrun := by
    -- A run of days off has no days.
    by_contra hlong
    exact hrun.worked first (Nat.le_refl first) (by omega) rfl
  shortest first length hrun _ _ := by
    have hpos := hrun.nonempty
    exact absurd rfl (hrun.worked first (Nat.le_refl first) (by omega))
  daysOff _ _ := rfl

/-- What is built is proper. -/
theorem WellFormed.proper (hr : r.WellFormed) (hp : r.params.Fits) : r.Proper where
  cover := hr.cover
  underWeight := hp.underWeight
  overWeight := hp.overWeight
  onRequests q hq := (hr.onRequests q hq).weight
  offRequests q hq := (hr.offRequests q hq).weight

/-- The model of a well-formed roster is feasible with every day off. -/
theorem WellFormed.feasible_off (hr : r.WellFormed) (hp : r.params.Fits) {m : Model}
    (hm : r.model = .ok m) : m.WellFormed ∧ m.vars = vars r.params ∧
      ∀ a : Assignment, (∀ x ∈ m.vars, a x.name = some 0) →
        ∃ vs, m.evaluate a = .ok vs ∧ Model.hardCount vs = 0 := by
  obtain ⟨hplan, hvars, hbuilt⟩ := model_eq_ok hm
  have hoff : Shows r.params (fun _ => 0) fun _ _ => 0 := fun _ _ _ _ => rfl
  -- The rules mean what the schedule obeys, and wishes are never hard.
  obtain ⟨hall, hrule, -⟩ := means_plan (hr.proper hp) hoff m.constraints hplan
  have hwf := (hbuilt hall).wellFormed
  refine ⟨hwf, hvars, fun a ha => ?_⟩
  have hdomain : InDomains (fun _ => 0) m.vars := by
    rw [hvars]
    intro x hx
    obtain ⟨staff, hstaff, day, hday, rfl⟩ := mem_vars.1 hx
    exact (ofRoster_dayVariable hstaff hday (Nat.zero_le _)).2
  refine ⟨_, hwf.evaluate_eq_ok hdomain ha, ?_⟩
  exact Model.hardCount_eq_zero_iff.trans hrule |>.2 fun staff _ => hr.obeys_off staff

/-- **Rosters that are drawn.** For all parameters that are accepted and fit, and whatever the draws
come up with in their ranges: there is a roster, it has a model, and every day off violates no hard
constraint of it. -/
theorem random_feasible {σ : Type} {d : Draws σ} (hd : d.InRange) {p : Params}
    (hcheck : p.check = .ok ()) (hfits : p.Fits) (s : σ) :
    ∃ r m, random d s p = .ok r ∧ r.model = .ok m ∧ m.WellFormed ∧ m.vars = vars p ∧
      ∀ a : Assignment, (∀ x ∈ m.vars, a x.name = some 0) →
        ∃ vs, m.evaluate a = .ok vs ∧ Model.hardCount vs = 0 := by
  obtain ⟨r, hrandom, rfl, hr⟩ := random_eq_ok hd hcheck hfits s
  obtain ⟨m, hm⟩ := hr.exists_model hfits
  exact ⟨r, m, hrandom, hm, hr.feasible_off hfits hm⟩

/-- The roster of a seed, with the sizes and prices that are used if none are given. -/
theorem random_feasible_seed : ∃ r m, random Stream.draws (Stream.ofSeed 42) {} = .ok r ∧
    r.model = .ok m ∧ ∃ vs, m.evaluate (fun _ => some 0) = .ok vs ∧ Model.hardCount vs = 0 := by
  have hfits : Params.Fits {} := ⟨by decide, by decide, by decide, by decide, by decide, by decide,
    by decide, by decide, by decide, by decide, by decide⟩
  obtain ⟨r, m, hrandom, hm, -, -, hoff⟩ :=
    random_feasible Stream.inRange_draws rfl hfits (Stream.ofSeed 42)
  exact ⟨r, m, hrandom, hm, hoff _ fun _ _ => rfl⟩

end Models

end Roster

end WeightedCsp

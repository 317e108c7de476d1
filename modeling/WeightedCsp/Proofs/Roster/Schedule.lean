import Mathlib.Algebra.BigOperators.Group.List.Basic
import Mathlib.Algebra.Order.Ring.Int
import WeightedCsp.Roster.Basic

/-!
# Schedules

A schedule says which shift every member of the staff works on every day, with zero for the day off.
What a roster asks of it is said here without constraints: the rules that the days of each member
have to obey (`Obeys`), and the price of the wishes that are not fulfilled (`price`).

The rules on working days in a row speak of runs.  Each of them comes down to runs of fixed lengths:
none is longer than a limit exactly if none has one day more (`run_le_iff`), and those between two
days off are long enough exactly if no shorter stretch of working days has a day off on either side
(`le_run_iff`).
-/

namespace WeightedCsp.Roster

/-- The shift of each member on each day; zero is the day off. -/
abbrev Schedule : Type := Nat → Nat → Nat

/-! ### Runs of working days -/

/-- The `length` days from `first` on are days of the roster, and all of them are worked. -/
structure Run (days : Nat) (row : Nat → Nat) (first length : Nat) : Prop where
  inside : first + length ≤ days
  worked : ∀ day, first ≤ day → day < first + length → row day ≠ 0

/-- A run that cannot be continued on either side. -/
structure MaximalRun (days : Nat) (row : Nat → Nat) (first length : Nat) : Prop
    extends Run days row first length where
  /-- There is a day. -/
  nonempty : 0 < length
  /-- The run begins with the roster, or after a day off. -/
  before : first = 0 ∨ row (first - 1) = 0
  /-- The run ends with the roster, or before a day off. -/
  after : first + length = days ∨ row (first + length) = 0

section Runs

variable {days : Nat} {row : Nat → Nat}

theorem Run.take {first length n : Nat} (h : Run days row first length) (hn : n ≤ length) :
    Run days row first n := by
  have hinside := h.inside
  refine ⟨by omega, fun day hfirst hday => ?_⟩
  apply h.worked day hfirst
  omega

/-- **Long runs.** No run is longer than the limit exactly if none is longer by one. -/
theorem run_le_iff {limit : Nat} :
    (∀ first length, Run days row first length → length ≤ limit) ↔
      ∀ first, ¬ Run days row first (limit + 1) := by
  constructor
  · intro h first hrun
    have := h first (limit + 1) hrun
    omega
  · intro h first length hrun
    by_contra hlong
    -- A run that is too long begins with one that is too long by a day.
    apply h first
    apply hrun.take
    omega

/-- The `length` days after `day` are worked, between two days off. -/
structure Stretch (days : Nat) (row : Nat → Nat) (day length : Nat) : Prop where
  before : row day = 0
  run : Run days row (day + 1) length
  after : row (day + length + 1) = 0

/-- **Short runs.** The maximal runs with a day off on both sides have a least length exactly if no
stretch is shorter. -/
theorem le_run_iff {least : Nat} :
    (∀ first length, MaximalRun days row first length → 0 < first → first + length < days →
        least ≤ length) ↔
      ∀ length, 0 < length → length < least → ∀ day, day + length + 1 < days →
        ¬ Stretch days row day length := by
  constructor
  · intro h length hpos hshort day hday hstretch
    have hafter : row (day + 1 + length) = 0 := by
      rw [show day + 1 + length = day + length + 1 by omega]
      exact hstretch.after
    have hmax : MaximalRun days row (day + 1) length :=
      ⟨hstretch.run, hpos, .inr hstretch.before, .inr hafter⟩
    have := h (day + 1) length hmax (by omega) (by omega)
    omega
  · intro h first length hmax hfirst hlast
    by_contra hshort
    have hbefore : row (first - 1) = 0 := hmax.before.resolve_left (by omega)
    have hafter : row (first + length) = 0 := hmax.after.resolve_left (by omega)
    -- Inside the roster a run that cannot be continued has days off next to it.
    obtain ⟨day, rfl⟩ : ∃ day, first = day + 1 := ⟨first - 1, by omega⟩
    apply h length hmax.nonempty (by omega) day (by omega)
    refine ⟨hbefore, hmax.toRun, ?_⟩
    rw [show day + length + 1 = day + 1 + length by omega]
    exact hafter

end Runs

/-! ### Rules and prices -/

/-- On how many days the shift is worked. -/
def timesWorked (days : Nat) (row : Nat → Nat) (shift : Nat) : Nat :=
  (List.range days).countP (row · = shift)

theorem timesWorked_le (days : Nat) (row : Nat → Nat) (shift : Nat) :
    timesWorked days row shift ≤ days := by
  have hle := List.countP_le_length (p := (row · = shift)) (l := List.range days)
  rwa [List.length_range] at hle

/-- The days of a member obey the rules. -/
structure Obeys (r : Roster) (staff : Nat) (row : Nat → Nat) : Prop where
  /-- No shift is followed by one that it forbids. -/
  successions : ∀ day, day + 1 < r.params.days → row (day + 1) ∉ r.forbidden.getD (row day) []
  /-- No shift is worked more often than the member may. -/
  limits : ∀ shift, 1 ≤ shift → shift ≤ r.params.shifts →
    timesWorked r.params.days row shift ≤ (r.maxShifts.getD staff []).getD shift 0
  /-- No run of working days is too long. -/
  longest : ∀ first length, Run r.params.days row first length → length ≤ r.params.maxConsecutive
  /-- No maximal run of working days with a day off on both sides is too short. -/
  shortest : ∀ first length, MaximalRun r.params.days row first length → 0 < first →
    first + length < r.params.days → r.params.minConsecutive ≤ length
  /-- Fixed days off are off. -/
  daysOff : ∀ day ∈ r.daysOff.getD staff [], row day = 0

/-- How many members work the shift on the day. -/
def present (p : Params) (work : Schedule) (day shift : Nat) : Nat :=
  (List.range p.staff).countP (work · day = shift)

/-- The preferred number of members on a shift of a day. -/
def preferred (r : Roster) (day shift : Nat) : Int := (r.cover.getD day []).getD shift 0

/-- The price of the members who are missing on a shift of a day, and of those who are too many. -/
def coverPrice (r : Roster) (work : Schedule) (day shift : Nat) : Int :=
  r.params.underWeight * max (r.preferred day shift - present r.params work day shift) 0 +
    r.params.overWeight * max (present r.params work day shift - r.preferred day shift) 0

/-- The price of the wishes that the schedule does not fulfil. -/
def price (r : Roster) (work : Schedule) : Int :=
  (r.onRequests.map fun q => if work q.staff q.day = q.shift then 0 else q.weight).sum +
    (r.offRequests.map fun q => if work q.staff q.day = q.shift then q.weight else 0).sum +
    ((List.range r.params.days).map fun day =>
      ((List.range' 1 r.params.shifts).map (r.coverPrice work day)).sum).sum

end WeightedCsp.Roster

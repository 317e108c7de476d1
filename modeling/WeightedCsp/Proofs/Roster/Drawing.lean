import Mathlib.Data.List.Nodup
import Mathlib.Data.List.ProdSigma
import Mathlib.Data.List.Range
import WeightedCsp.Roster.Random

/-!
# Tables that are drawn

A roster is well-formed if its tables have a row for each member, shift and day that is asked for,
with entries that exist in the roster, and if nothing is said twice (`Roster.WellFormed`).  Every
roster that is drawn is (`random_eq_ok`), whatever the source of the draws comes up with, as long as
numbers lie in the range they are drawn from.

`Drawing.Yields` says of a draw that it does not fault and what can come of it.  Each function that
draws has one lemma about its own table.
-/

namespace WeightedCsp

/-! ### What a draw yields -/

namespace Drawing

variable {σ α β : Type} {x : Drawing σ α} {P Q : α → Prop}

/-- The draw does not fault from any state, and what comes of it has the property. -/
def Yields (x : Drawing σ α) (P : α → Prop) : Prop := ∀ s, ∃ a s', x s = .ok a s' ∧ P a

theorem yields_pure {a : α} (h : P a) : Yields (pure a : Drawing σ α) P :=
  fun s => ⟨a, s, rfl, h⟩

/-- Sequencing of draws. -/
theorem Yields.bind {f : α → Drawing σ β} {R : β → Prop} (hx : Yields x P)
    (hf : ∀ a, P a → Yields (f a) R) : Yields (x >>= f) R := by
  intro s
  obtain ⟨a, s', hrun, ha⟩ := hx s
  obtain ⟨b, s'', hrest, hb⟩ := hf a ha s'
  refine ⟨b, s'', ?_, hb⟩
  show EStateM.bind x f s = _
  rw [EStateM.bind, hrun]
  exact hrest

theorem Yields.mono (hx : Yields x P) (h : ∀ a, P a → Q a) : Yields x Q := by
  intro s
  obtain ⟨a, s', hrun, ha⟩ := hx s
  exact ⟨a, s', hrun, h a ha⟩

theorem yields_coin (d : Draws σ) (p : Chance) : Yields (coin d p) fun _ => True :=
  fun s => ⟨(d.coin p s).1, (d.coin p s).2, rfl, trivial⟩

end Drawing

namespace Draws.InRange

variable {σ : Type} {d : Draws σ}

theorem yields_size (hd : d.InRange) {lo hi : Nat} (h : lo ≤ hi) :
    (Drawing.size d lo hi).Yields fun n => lo ≤ n ∧ n ≤ hi := by
  intro s
  refine ⟨(d.size lo hi s).1, (d.size lo hi s).2, ?_, hd.size lo hi s h⟩
  rw [Drawing.size, if_pos h]

/-- An integer is drawn from its range. -/
theorem yields_int (hd : d.InRange) {lo hi : Int} (hlo : Word.InRange lo) (hhi : Word.InRange hi)
    (h : lo ≤ hi) : (Drawing.int d lo hi).Yields fun n => lo ≤ n ∧ n ≤ hi := by
  intro s
  refine ⟨(d.int lo hi s).1, (d.int lo hi s).2, ?_, hd.int lo hi s hlo hhi h⟩
  rw [Drawing.int, if_pos h]

end Draws.InRange

namespace Roster

/-! ### Well-formed rosters -/

/-- The weights of a roster are not negative, the requests have a weight to draw, and nothing that
is counted or charged leaves the machine range. -/
structure Params.Fits (p : Params) : Prop where
  /-- The members can be counted. -/
  staff : (p.staff : Int) ≤ Word.greatest
  /-- The days can be counted. -/
  days : (p.days : Int) ≤ Word.greatest
  /-- The shifts can be counted. -/
  shifts : (p.shifts : Int) ≤ Word.greatest
  /-- The days of a window can be counted. -/
  window : p.maxConsecutive + 1 < Word.sizeLimit
  /-- Requests do not have negative weights. -/
  requestLow : 0 ≤ p.requestLow
  /-- There is a weight for requests. -/
  request : p.requestLow ≤ p.requestHigh
  /-- Requests have machine integers as weights. -/
  requestHigh : p.requestHigh ≤ Word.greatest
  /-- The weight of a missing member is not negative. -/
  underWeight : 0 ≤ p.underWeight
  /-- The weight of a member too many is not negative. -/
  overWeight : 0 ≤ p.overWeight
  /-- All members can be missing, and one more. -/
  underPrice : p.underWeight * (p.staff + 1) ≤ Word.greatest
  /-- All members can be too many, and one more. -/
  overPrice : p.overWeight * (p.staff + 1) ≤ Word.greatest

/-- The wish is about a member, a day and a shift of the roster, and its weight is not negative. -/
structure Request.Inside (p : Params) (q : Request) : Prop where
  staff : q.staff < p.staff
  day : q.day < p.days
  shift : q.shift ≤ p.shifts
  weight : 0 ≤ q.weight

/-- What a wish is about. -/
def Request.subject (q : Request) : Nat × Nat × Nat := (q.staff, q.day, q.shift)

/-- The tables have a row for everything that is asked for, the entries exist in the roster, and
nothing is said twice. -/
structure WellFormed (r : Roster) : Prop where
  /-- Shifts forbid shifts, each of them once, and not the day off. -/
  forbidden : ∀ e ∈ r.forbidden.zipIdx, e.2 ≤ r.params.shifts ∧ e.1.Nodup ∧
    ∀ next ∈ e.1, 1 ≤ next ∧ next ≤ r.params.shifts
  /-- Each member has limits. -/
  members : r.maxShifts.length = r.params.staff
  /-- There is a limit for each shift, and it allows for half of the days. -/
  limits : ∀ row ∈ r.maxShifts, row.length = r.params.shifts + 1 ∧
    ∀ limit ∈ row, r.params.days / 2 ≤ limit
  /-- Each member has its days off. -/
  restful : r.daysOff.length = r.params.staff
  /-- They are days of the roster, each of them named once. -/
  daysOff : ∀ row ∈ r.daysOff, row.Nodup ∧ ∀ day ∈ row, day < r.params.days
  /-- Wishes to work are about the roster. -/
  onRequests : ∀ q ∈ r.onRequests, q.Inside r.params
  /-- No wish to work is made twice. -/
  onRequestsNodup : (r.onRequests.map Request.subject).Nodup
  /-- Wishes not to work are about the roster. -/
  offRequests : ∀ q ∈ r.offRequests, q.Inside r.params
  /-- No wish not to work is made twice. -/
  offRequestsNodup : (r.offRequests.map Request.subject).Nodup
  /-- Each day has its preferred numbers. -/
  cover : r.cover.length = r.params.days
  /-- There is a number for each shift, and it is no larger than the staff. -/
  preferred : ∀ row ∈ r.cover, row.length = r.params.shifts + 1 ∧
    ∀ n ∈ row, 0 ≤ n ∧ n ≤ r.params.staff

/-! ### Tables -/

section Tables

open Drawing

variable {σ α : Type} {d : Draws σ} {p : Params}

theorem yields_repeatDraw {draw : Drawing σ α} {P : α → Prop} (h : draw.Yields P) (n : Nat) :
    (repeatDraw draw n).Yields fun as => as.length = n ∧ ∀ a ∈ as, P a := by
  induction n with
  | zero => exact yields_pure ⟨rfl, List.forall_mem_nil _⟩
  | succ n ih =>
    apply h.bind
    intro a ha
    apply ih.bind
    rintro as ⟨hlength, has⟩
    exact yields_pure ⟨congrArg (· + 1) hlength, List.forall_mem_cons.2 ⟨ha, has⟩⟩

/-- Picking leaves some out, and keeps the order. -/
theorem yields_pick (d : Draws σ) (chance : Chance) (ns : List Nat) :
    (pick d chance ns).Yields (List.Sublist · ns) := by
  induction ns with
  | nil => exact yields_pure (List.Sublist.refl _)
  | cons n ns ih =>
    apply (yields_coin d chance).bind
    intro taken _
    apply ih.bind
    intro others hothers
    apply yields_pure
    split_ifs
    · exact hothers.cons_cons n
    · exact hothers.cons n

/-- A shift forbids some of the earlier shifts. -/
theorem yields_drawForbidden (d : Draws σ) (shift n : Nat) :
    (drawForbidden d shift n).Yields fun rows => ∀ e ∈ rows.zipIdx shift,
      e.2 < shift + n ∧ e.1.Sublist (List.range' 1 (e.2 - 1)) := by
  induction n generalizing shift with
  | zero => exact yields_pure (List.forall_mem_nil _)
  | succ n ih =>
    apply (yields_pick d .half _).bind
    intro nexts hnexts
    -- The rows that follow belong to later shifts, so their places are counted from there.
    apply (ih (shift + 1)).bind
    intro rows hrows
    apply yields_pure
    rw [List.zipIdx_cons]
    refine List.forall_mem_cons.2 ⟨⟨by omega, hnexts⟩, fun e he => ?_⟩
    obtain ⟨hlt, hsublist⟩ := hrows e he
    exact ⟨by omega, hsublist⟩

theorem yields_drawLimits (hd : d.InRange) (p : Params) :
    (drawLimits d p).Yields fun row => row.length = p.shifts + 1 ∧
      ∀ limit ∈ row, p.days / 2 ≤ limit := by
  have hhalf : p.days / 2 ≤ p.days := Nat.div_le_self p.days 2
  apply (yields_repeatDraw (hd.yields_size hhalf) p.shifts).bind
  rintro limits ⟨hlength, hlimits⟩
  -- The entry of the day off comes first and allows all days.
  refine yields_pure ⟨congrArg (· + 1) hlength, List.forall_mem_cons.2 ⟨hhalf, ?_⟩⟩
  exact fun limit hlimit => (hlimits limit hlimit).1

/-- Days off are drawn inside the horizon, and none of them twice. -/
theorem yields_drawDayOff (hd : d.InRange) (hdays : p.days ≠ 0) :
    (drawDayOff d p).Yields fun row => row.Nodup ∧ ∀ day ∈ row, day < p.days := by
  apply (hd.yields_size (Nat.zero_le (p.days - 1))).bind
  rintro day ⟨-, hday⟩
  refine yields_pure ⟨List.nodup_singleton day, List.forall_mem_singleton.2 ?_⟩
  omega

/-- The wish is about this member and this day. -/
def IsFor (p : Params) (place : Nat × Nat) (q : Bool × Request) : Prop :=
  (q.2.staff, q.2.day) = place ∧ q.2.shift ≤ p.shifts ∧ 0 ≤ q.2.weight

/-- A request is for the member and the day it is drawn for. -/
theorem yields_drawRequest (hd : d.InRange) (hfits : p.Fits) (hshifts : p.shifts ≠ 0)
    (staff day : Nat) :
    (drawRequest d p staff day).Yields fun request => ∀ q ∈ request, IsFor p (staff, day) q := by
  -- The lower end is bounded below only and the upper end above only; the order gives the rest.
  have hlow : Word.InRange p.requestLow := by
    refine ⟨Int.le_trans (by decide) hfits.requestLow, ?_⟩
    exact Int.le_trans hfits.request hfits.requestHigh
  have hhigh : Word.InRange p.requestHigh :=
    ⟨Int.le_trans hlow.1 hfits.request, hfits.requestHigh⟩
  apply (yields_coin d .fifth).bind
  intro asked _
  split_ifs
  · apply (hd.yields_size (Nat.one_le_iff_ne_zero.2 hshifts)).bind
    rintro shift ⟨-, hshift⟩
    apply (hd.yields_int hlow hhigh hfits.request).bind
    rintro weight ⟨hweight, -⟩
    apply (yields_coin d .half).bind
    intro on _
    apply yields_pure
    rintro q ⟨⟩
    exact ⟨rfl, hshift, Int.le_trans hfits.requestLow hweight⟩
  · apply yields_pure
    rintro q ⟨⟩

/-- There is at most one wish for each place, and they come in the order of the places. -/
theorem yields_drawRequests (hd : d.InRange) (hfits : p.Fits) (hshifts : p.shifts ≠ 0)
    (places : List (Nat × Nat)) :
    (drawRequests d p places).Yields fun qs =>
      (qs.map fun q => (q.2.staff, q.2.day)).Sublist places ∧
        ∀ q ∈ qs, q.2.shift ≤ p.shifts ∧ 0 ≤ q.2.weight := by
  induction places with
  | nil => exact yields_pure ⟨List.Sublist.refl _, List.forall_mem_nil _⟩
  | cons place places ih =>
    obtain ⟨staff, day⟩ := place
    apply (yields_drawRequest hd hfits hshifts staff day).bind
    intro request hrequest
    apply ih.bind
    rintro qs ⟨hsublist, hqs⟩
    apply yields_pure
    cases request with
    | none => exact ⟨hsublist.cons _, hqs⟩
    | some q =>
      obtain ⟨hplace, hq⟩ := hrequest q rfl
      refine ⟨?_, List.forall_mem_cons.2 ⟨hq, hqs⟩⟩
      show List.Sublist ((q.2.staff, q.2.day) :: _) _
      rw [hplace]
      exact hsublist.cons_cons _

theorem nodup_memberDays (p : Params) : (memberDays p).Nodup := by
  have hproduct : memberDays p = List.range p.staff ×ˢ List.range p.days := rfl
  rw [hproduct]
  exact List.nodup_range.product List.nodup_range

theorem mem_memberDays {place : Nat × Nat} :
    place ∈ memberDays p ↔ place.1 < p.staff ∧ place.2 < p.days := by
  have hproduct : memberDays p = List.range p.staff ×ˢ List.range p.days := rfl
  rw [hproduct, List.mem_product, List.mem_range, List.mem_range]

/-- Members that can be counted are not too many to be asked for. -/
theorem exists_mostCover (hfits : p.Fits) (hstaff : p.staff ≠ 0) :
    ∃ most, mostCover p = .ok most ∧ 0 ≤ most ∧ most ≤ p.staff := by
  have hle := Nat.div_le_self p.staff p.shifts
  have hcounted := hfits.staff
  refine ⟨max ((p.staff / p.shifts : Nat) : Int) 1, ?_, by omega, by omega⟩
  unfold mostCover
  rw [if_neg (by omega)]

/-- Cover is drawn between nobody and everybody. -/
theorem yields_drawCover (hd : d.InRange) (hfits : p.Fits) {most : Int} (hnonneg : 0 ≤ most)
    (hmost : most ≤ p.staff) :
    (drawCover d p most).Yields fun row => row.length = p.shifts + 1 ∧
      ∀ n ∈ row, 0 ≤ n ∧ n ≤ p.staff := by
  have hrange : Word.InRange most :=
    ⟨Int.le_trans (by decide) hnonneg, Int.le_trans hmost hfits.staff⟩
  apply (yields_repeatDraw (hd.yields_int (by decide) hrange hnonneg) p.shifts).bind
  rintro row ⟨hlength, hrow⟩
  -- The entry of the day off comes first and asks for nobody.
  refine yields_pure ⟨congrArg (· + 1) hlength, List.forall_mem_cons.2 ⟨?_, fun n hn => ?_⟩⟩
  · exact ⟨Int.le_refl 0, Int.natCast_nonneg _⟩
  · exact ⟨(hrow n hn).1, Int.le_trans (hrow n hn).2 hmost⟩

/-- Some of the wishes, without their marks, are about different subjects. -/
theorem wishes_of_drawn {qs : List (Bool × Request)}
    (hplaces : (qs.map fun q => (q.2.staff, q.2.day)).Sublist (memberDays p))
    (hqs : ∀ q ∈ qs, q.2.shift ≤ p.shifts ∧ 0 ≤ q.2.weight) (kept : Bool × Request → Bool) :
    (∀ q ∈ (qs.filter kept).map (·.2), q.Inside p) ∧
      (((qs.filter kept).map (·.2)).map Request.subject).Nodup := by
  constructor
  · intro q hq
    obtain ⟨e, he, rfl⟩ := List.mem_map.1 hq
    have hmem := List.mem_of_mem_filter he
    obtain ⟨hstaff, hday⟩ := mem_memberDays.1 (hplaces.subset (List.mem_map_of_mem hmem))
    exact ⟨hstaff, hday, (hqs e hmem).1, (hqs e hmem).2⟩
  · have hkept : ((qs.filter kept).map fun q => (q.2.staff, q.2.day)).Nodup :=
      ((nodup_memberDays p).sublist hplaces).sublist (List.filter_sublist.map _)
    -- Two wishes about one subject would be for one member and day.
    apply List.Nodup.of_map fun subject : Nat × Nat × Nat => (subject.1, subject.2.1)
    rw [List.map_map, List.map_map]
    exact hkept

/-- **Tables.** With dimensions that fit, a well-formed roster is drawn. -/
theorem yields_drawTables (hd : d.InRange) (hfits : p.Fits) (hstaff : p.staff ≠ 0)
    (hdays : p.days ≠ 0) (hshifts : p.shifts ≠ 0) :
    (drawTables d p).Yields fun t => ∃ r, t = .ok r ∧ r.params = p ∧ r.WellFormed := by
  apply (yields_drawForbidden d 0 (p.shifts + 1)).bind
  intro forbidden hforbidden
  apply (yields_repeatDraw (yields_drawLimits hd p) p.staff).bind
  rintro maxShifts ⟨hmembers, hlimits⟩
  apply (yields_repeatDraw (yields_drawDayOff hd hdays) p.staff).bind
  rintro daysOff ⟨hrestful, hdaysOff⟩
  apply (yields_drawRequests hd hfits hshifts (memberDays p)).bind
  rintro requests ⟨hplaces, hrequests⟩
  obtain ⟨most, hmost, hnonneg, hle⟩ := exists_mostCover hfits hstaff
  rw [hmost]
  apply (yields_repeatDraw (yields_drawCover hd hfits hnonneg hle) p.days).bind
  rintro cover ⟨hcover, hpreferred⟩
  obtain ⟨hon, honNodup⟩ := wishes_of_drawn hplaces hrequests (·.1)
  obtain ⟨hoff, hoffNodup⟩ := wishes_of_drawn hplaces hrequests (!·.1)
  refine yields_pure ⟨_, rfl, rfl, ?_, hmembers, hlimits, hrestful, hdaysOff, hon, honNodup, hoff,
    hoffNodup, hcover, hpreferred⟩
  intro e he
  -- What a shift forbids are earlier shifts, so they exist if it does.
  obtain ⟨hlt, hsublist⟩ := hforbidden e he
  have hshift : e.2 ≤ p.shifts := by omega
  have hnodup : (List.range' 1 (e.2 - 1)).Nodup := List.nodup_range'
  refine ⟨hshift, hnodup.sublist hsublist, fun next hnext => ?_⟩
  obtain ⟨hpos, hbefore⟩ := List.mem_range'_1.1 (hsublist.subset hnext)
  have hle : next ≤ p.shifts := by omega
  exact ⟨hpos, hle⟩

end Tables

/-! ### Rosters -/

variable {σ : Type} {d : Draws σ} {p : Params}

theorem check_eq_ok {u : Unit} (h : p.check = .ok u) :
    p.staff ≠ 0 ∧ p.days ≠ 0 ∧ p.shifts ≠ 0 := by
  unfold Params.check at h
  split_ifs at h with hempty
  simpa [not_or] using hempty

/-- **Drawing.** Parameters that are accepted lead to a well-formed roster. -/
theorem random_eq_ok (hd : d.InRange) (hcheck : p.check = .ok ()) (hfits : p.Fits) (s : σ) :
    ∃ r, random d s p = .ok r ∧ r.params = p ∧ r.WellFormed := by
  obtain ⟨hstaff, hdays, hshifts⟩ := check_eq_ok hcheck
  obtain ⟨t, s', hrun, r, rfl, hr⟩ := yields_drawTables hd hfits hstaff hdays hshifts s
  refine ⟨r, ?_, hr⟩
  rw [random, hcheck, hrun]
  rfl

end Roster

end WeightedCsp

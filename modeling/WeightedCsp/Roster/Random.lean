import WeightedCsp.Random.Draws
import WeightedCsp.Roster.Basic

/-!
# Random rosters

Draws the tables of a roster one after the other.  A later shift may forbid an earlier one on the
next day; a member may work a shift on at least half of the days and has one day off; on every
fifth day or so a member has a wish; and the preferred numbers on the shifts of a day share out the
staff.
-/

namespace WeightedCsp.Roster

variable {σ : Type}

/-- The members of a list for which a coin falls true. -/
def pick (d : Draws σ) (p : Chance) : List Nat → Drawing σ (List Nat)
  | [] => return []
  | n :: rest => do
    let taken ← Drawing.coin d p
    let others ← pick d p rest
    return if taken then n :: others else others

/-- The same draw several times. -/
def repeatDraw {α : Type} (draw : Drawing σ α) : Nat → Drawing σ (List α)
  | 0 => return []
  | n + 1 => do
    let a ← draw
    return a :: (← repeatDraw draw n)

/-- For the shifts from `shift` on, `n` of them, the earlier shifts that they forbid. -/
def drawForbidden (d : Draws σ) : Nat → Nat → Drawing σ (List (List Nat))
  | _, 0 => return []
  | shift, n + 1 => do
    let nexts ← pick d .half (List.range' 1 (shift - 1))
    return nexts :: (← drawForbidden d (shift + 1) n)

/-- The limits of a member: all days may be off. -/
def drawLimits (d : Draws σ) (p : Params) : Drawing σ (List Nat) := do
  return p.days :: (← repeatDraw (Drawing.size d (p.days / 2) p.days) p.shifts)

/-- A day off. -/
def drawDayOff (d : Draws σ) (p : Params) : Drawing σ (List Nat) := do
  return [← Drawing.size d 0 (p.days - 1)]

/-- A wish of a member for a day, if there is one; the mark says whether it is to work. -/
def drawRequest (d : Draws σ) (p : Params) (staff day : Nat) :
    Drawing σ (Option (Bool × Request)) := do
  if ← Drawing.coin d .fifth then
    let shift ← Drawing.size d 1 p.shifts
    let weight ← Drawing.int d p.requestLow p.requestHigh
    let on ← Drawing.coin d .half
    return some (on, ⟨staff, day, shift, weight⟩)
  else return none

/-- The wishes for pairs of member and day. -/
def drawRequests (d : Draws σ) (p : Params) : List (Nat × Nat) → Drawing σ (List (Bool × Request))
  | [] => return []
  | (staff, day) :: rest => do
    let request ← drawRequest d p staff day
    let others ← drawRequests d p rest
    return request.toList ++ others

/-- All pairs of member and day, member by member. -/
def memberDays (p : Params) : List (Nat × Nat) :=
  (List.range p.staff).flatMap fun staff => (List.range p.days).map fun day => (staff, day)

/-- The greatest number of members that a day may ask for on a shift. -/
def mostCover (p : Params) : Except Error Int :=
  let share := p.staff / p.shifts
  if Word.greatest < share then .error .tooManyStaff else .ok (max share 1)

/-- The preferred numbers of a day: nobody has to be off. -/
def drawCover (d : Draws σ) (p : Params) (most : Int) : Drawing σ (List Int) := do
  return 0 :: (← repeatDraw (Drawing.int d 0 most) p.shifts)

/-- The tables of a roster, up to a number that is too large. -/
def drawTables (d : Draws σ) (p : Params) : Drawing σ (Except Error Roster) := do
  let forbidden ← drawForbidden d 0 (p.shifts + 1)
  let maxShifts ← repeatDraw (drawLimits d p) p.staff
  let daysOff ← repeatDraw (drawDayOff d p) p.staff
  let requests ← drawRequests d p (memberDays p)
  match mostCover p with
  | .error e => return .error e
  | .ok most => do
    let cover ← repeatDraw (drawCover d p most) p.days
    return .ok {
      params := p
      forbidden := forbidden
      maxShifts := maxShifts
      daysOff := daysOff
      onRequests := (requests.filter (·.1)).map (·.2)
      offRequests := (requests.filter (!·.1)).map (·.2)
      cover := cover }

/-- Refuses parameters of an empty roster, and limits that contradict each other. -/
def Params.check (p : Params) : Except Error Unit :=
  if p.staff = 0 ∨ p.days = 0 ∨ p.shifts = 0 then .error .empty
  else if p.maxConsecutive < p.minConsecutive then .error .consecutive
  else .ok ()

/-- A roster drawn from a source in some state. -/
def random (d : Draws σ) (s : σ) (p : Params) : Except (Failure Error) Roster := do
  Failure.ofExcept p.check
  match drawTables d p s with
  | .ok r _ => Failure.ofExcept r
  | .error f _ => throw (.fault f)

end WeightedCsp.Roster

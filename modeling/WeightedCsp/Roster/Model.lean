import WeightedCsp.Roster.Basic

/-!
# The model of a roster

A variable for each member and day takes the shift of that day.  The rules and wishes are planned
as a list of constraints, each built from the roster alone, and then registered one after the
other.

* `C02`: a shift is not followed by one that it forbids.
* `C03`: a shift is not worked more often than the member may.
* `C05`: of one more day than may be worked in a row, one is off.
* `C06`: fewer days than have to be worked in a row are not worked between two days off.
* `C09`: a fixed day off is off.
* `C11` and `C12`: wishes to work a shift, and not to.
* `C13` and `C14`: at least, and at most, the preferred number of members work a shift.
-/

namespace WeightedCsp.Roster

/-- A constraint, or why it cannot be built. -/
abbrev Planned : Type := Except (Failure Error) Constraint

/-- A number with two digits at least. -/
def two (n : Nat) : String := Decimal.padded 2 n

/-- The name of the variable of a member and a day. -/
def variableName (staff day : Nat) : String := "x_i" ++ two staff ++ "_d" ++ two day

/-- The variable of a member and a day. -/
def dayVariable (p : Params) (staff day : Nat) : Variable :=
  ⟨variableName staff day, .upTo p.shifts⟩

/-- The variable of a member and a day that may lie outside the roster. -/
def lookUp (p : Params) (staff day : Nat) : Checked Variable :=
  if p.staff ≤ staff then .error (.index p.staff staff)
  else if p.days ≤ day then .error (.index p.days day)
  else .ok (dayVariable p staff day)

/-- The number of a shift as a value. -/
def shiftValue (shift : Nat) : Except (Failure Error) Int :=
  if (shift : Int) ≤ Word.greatest then .ok shift else .error (.error .shiftOutOfRange)

/-- A part of the model. -/
def building {α : Type} (r : Except ModelError α) : Except (Failure Error) α :=
  match r with
  | .ok a => .ok a
  | .error e => .error (.error (.model e))

/-- A list that cannot be planned has its fault as its only entry. -/
def orFault (plan : Checked (List Planned)) : List Planned :=
  match plan with
  | .ok cs => cs
  | .error f => [.error (.fault f)]

/-! ### Rules -/

/-- The day is off, or it is not. -/
def offTerm (p : Params) (staff day : Nat) (off : Bool) : Predicate :=
  ⟨dayVariable p staff day, 0, off⟩

/-- On two days in a row, a shift is not followed by another. -/
def succession (p : Params) (staff day shift next : Nat) : Planned := do
  let a ← shiftValue shift
  let b ← shiftValue next
  building (Constraint.conflict
    ("C02_i" ++ two staff ++ "_d" ++ two day ++ "_t" ++ two shift ++ "_r" ++ two next) .hard
    [⟨dayVariable p staff day, a, true⟩, ⟨dayVariable p staff (day + 1), b, true⟩])

/-- The forbidden successions of a member. -/
def successions (r : Roster) (staff : Nat) : List Planned :=
  (List.range (r.params.days - 1)).flatMap fun day =>
    r.forbidden.zipIdx.flatMap fun (nexts, shift) =>
      nexts.map fun next => succession r.params staff day shift next

/-- One for each day on which the member works the shift. -/
def workTerms (p : Params) (staff : Nat) (shift : Int) : List IndicatorTerm :=
  (List.range p.days).map fun day => ⟨1, dayVariable p staff day, shift⟩

/-- A member works a shift at most that often. -/
def atMost (p : Params) (staff shift max : Nat) : Planned := do
  let t ← shiftValue shift
  building (Constraint.pseudoBoolean ("C03_i" ++ two staff ++ "_t" ++ two shift) .hard
    (workTerms p staff t) (some .le) max)

/-- The limit of a member for one shift; none is needed if it allows all days. -/
def shiftLimit (r : Roster) (staff shift : Nat) : List Planned :=
  orFault do
    let max ← Checked.entry (← Checked.entry r.maxShifts staff) shift
    return if r.params.days ≤ max then [] else [atMost r.params staff shift max]

/-- The limits of a member. -/
def shiftLimits (r : Roster) (staff : Nat) : List Planned :=
  (List.range' 1 r.params.shifts).flatMap (shiftLimit r staff)

/-- Of `length` days from a day on, one is off. -/
def window (p : Params) (staff length day : Nat) : Planned :=
  building (Constraint.conflict ("C05_i" ++ two staff ++ "_d" ++ two day) .hard
    ((List.range' day length).map fun d => offTerm p staff d false))

/-- The windows of a member. -/
def windows (p : Params) (staff : Nat) : List Planned :=
  orFault do
    let length ← Word.addSize p.maxConsecutive 1
    let days ← Word.addSize p.days 1
    return (List.range (days - length)).map (window p staff length)

/-- The `length` days after a day are not all worked between two days off. -/
def stretch (p : Params) (staff length day : Nat) : Planned :=
  building (Constraint.conflict
    ("C06_i" ++ two staff ++ "_s" ++ two length ++ "_d" ++ two day) .hard
    (offTerm p staff day true ::
      (List.range' (day + 1) length).map (fun d => offTerm p staff d false) ++
      [offTerm p staff (day + length + 1) true]))

/-- The stretches of a member that are too short. -/
def stretches (p : Params) (staff : Nat) : List Planned :=
  (List.range' 1 (p.minConsecutive - 1)).flatMap fun length =>
    (List.range (p.days - (length + 1))).map (stretch p staff length)

/-- A fixed day off. -/
def dayOff (p : Params) (staff day : Nat) : Planned := do
  let x ← (if p.days ≤ day then .error (.index p.days day) else .ok (dayVariable p staff day) :
    Checked Variable)
  building (Constraint.conflict ("C09_i" ++ two staff ++ "_d" ++ two day) .hard [⟨x, 0, false⟩])

/-- The fixed days off of a member. -/
def fixedDays (r : Roster) (staff : Nat) : List Planned :=
  orFault do
    let days ← Checked.entry r.daysOff staff
    return days.map (dayOff r.params staff)

/-- The rules for a member. -/
def rules (r : Roster) (staff : Nat) : List Planned :=
  successions r staff ++ shiftLimits r staff ++ windows r.params staff ++
    stretches r.params staff ++ fixedDays r staff

/-! ### Wishes -/

/-- A wish: it is violated if the member works the shift (`polarity` true), or does not. -/
def wish (p : Params) (kind : String) (polarity : Bool) (q : Request) : Planned := do
  let x ← (lookUp p q.staff q.day : Checked Variable)
  let v ← shiftValue q.shift
  building (Constraint.conflict
    (kind ++ "_i" ++ two q.staff ++ "_d" ++ two q.day ++ "_t" ++ two q.shift)
    (.ofInt q.weight) [⟨x, v, polarity⟩])

/-- One for each member who works the shift on the day. -/
def coverTerms (p : Params) (day : Nat) (shift : Int) : Checked (List IndicatorTerm) :=
  (List.range p.staff).mapM fun staff => do return ⟨1, ← lookUp p staff day, shift⟩

/-- The preferred number of members on a shift of a day, as a bound with a weight; a bound without
weight is left out. -/
def coverBound (p : Params) (kind : String) (op : Comparator) (weight : Int) (cover : List Int)
    (day shift : Nat) : List Planned :=
  if weight = 0 then []
  else
    [do
      let rhs ← (Checked.entry cover shift : Checked Int)
      let t ← shiftValue shift
      let terms ← (coverTerms p day t : Checked (List IndicatorTerm))
      building (Constraint.pseudoBoolean (kind ++ "_d" ++ two day ++ "_t" ++ two shift)
        (.ofInt weight) terms (some op) rhs)]

/-- The bounds of a day. -/
def covers (p : Params) (day : Nat) (cover : List Int) : List Planned :=
  (List.range' 1 p.shifts).flatMap fun shift =>
    coverBound p "C13" .ge p.underWeight cover day shift ++
      coverBound p "C14" .le p.overWeight cover day shift

/-! ### The model -/

/-- All constraints in the order of their registration. -/
def plan (r : Roster) : List Planned :=
  (List.range r.params.staff).flatMap (rules r) ++
    r.onRequests.map (wish r.params "C11" false) ++
    r.offRequests.map (wish r.params "C12" true) ++
    r.cover.zipIdx.flatMap fun (cover, day) => covers r.params day cover

/-- Registers variables. -/
def addVariables : List Variable → Registering Unit
  | [] => return ()
  | x :: rest => do
    let _ ← Model.newVariable x.name x.domain
    addVariables rest

/-- Registers planned constraints; the first that cannot be built or registered ends it. -/
def addPlanned : List Planned → Step Error Model Unit
  | [] => return ()
  | planned :: rest => do
    let c ← planned
    (Model.addConstraint c).mapError .model
    addPlanned rest

/-- The variables, member by member. -/
def vars (p : Params) : List Variable :=
  (List.range p.staff).flatMap fun staff => (List.range p.days).map (dayVariable p staff)

/-- Registers the variables and the constraints of a roster. -/
def register (r : Roster) : Step Error Model Unit := do
  if Word.greatest < r.params.shifts then Step.fail .tooManyShifts
  (addVariables (vars r.params)).mapError .model
  addPlanned r.plan

/-- The model of a roster. -/
def model (r : Roster) : Except (Failure Error) Model := r.register.build .empty

end WeightedCsp.Roster

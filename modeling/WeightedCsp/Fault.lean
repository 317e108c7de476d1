/-!
# Faults and failures

A computation of this library can stop in two ways.  An *error* is a typed cause that its caller
may handle: the state that the failing step left behind is still usable.  A *fault* is the end of
the computation: machine arithmetic left its range, a table was read outside its bounds, or a
precondition of an encoding was broken.  `Failure ε` is the sum of the two for errors of type `ε`.
-/

namespace WeightedCsp

/-- A computation that cannot go on. -/
inductive Fault where
  /-- A sum left the machine range. -/
  | add
  /-- A difference left the machine range. -/
  | sub
  /-- A product left the machine range. -/
  | mul
  /-- The opposite of the least machine integer was asked for. -/
  | neg
  /-- The least machine integer was divided by `-1`. -/
  | div
  /-- The remainder of the least machine integer by `-1` was asked for. -/
  | rem
  /-- An order encoding was asked for over no value at all. -/
  | emptyOrder
  /-- A random draw was asked for from an empty range. -/
  | emptyRange
  /-- A limit of time lies beyond the end of the clock. -/
  | deadline
  /-- A table of `length` entries was read at `place`. -/
  | index (length place : Nat)
deriving DecidableEq, Repr

/-- The wording of a fault. -/
def Fault.message : Fault → String
  | .add => "attempt to add with overflow"
  | .sub => "attempt to subtract with overflow"
  | .mul => "attempt to multiply with overflow"
  | .neg => "attempt to negate with overflow"
  | .div => "attempt to divide with overflow"
  | .rem => "attempt to calculate the remainder with overflow"
  | .emptyOrder => "order encoding of an empty domain"
  | .emptyRange => "cannot sample empty range"
  | .deadline => "overflow when adding duration to instant"
  | .index length place =>
    "index out of bounds: the len is " ++ length.repr ++ " but the index is " ++ place.repr

/-- Either a fault or an error with a cause of type `ε`. -/
inductive Failure (ε : Type) where
  /-- The computation is over. -/
  | fault (f : Fault)
  /-- The step failed with a cause its caller may handle. -/
  | error (e : ε)
deriving DecidableEq, Repr

/-- The same failure with its cause seen as part of a larger error type. -/
def Failure.map {ε δ : Type} (f : ε → δ) : Failure ε → Failure δ
  | .fault t => .fault t
  | .error e => .error (f e)

/-- A computation without state that may fault, and fails in no other way. -/
abbrev Checked : Type → Type := Except Fault

/-- The entry of a table at a place. -/
def Checked.entry {α : Type} (table : List α) (place : Nat) : Checked α :=
  match table[place]? with
  | some a => .ok a
  | none => .error (.index table.length place)

/-- A computation over a state that survives errors: what a failing step has done so far stays
done. -/
abbrev Step (ε σ : Type) : Type → Type := EStateM (Failure ε) σ

instance {ε : Type} : MonadLift Checked (Except (Failure ε)) where
  monadLift
    | .ok a => .ok a
    | .error t => .error (.fault t)

instance {ε σ : Type} : MonadLift Checked (Step ε σ) where
  monadLift
    | .ok a => fun s => .ok a s
    | .error t => fun s => .error (.fault t) s

instance {ε σ : Type} : MonadLift (Except (Failure ε)) (Step ε σ) where
  monadLift
    | .ok a => fun s => .ok a s
    | .error e => fun s => .error e s

/-- Fails with a typed cause. -/
def Step.fail {ε σ α : Type} (e : ε) : Step ε σ α := fun s => .error (.error e) s

/-- The state that a step comes to from another. -/
def Step.build {ε σ : Type} (x : Step ε σ Unit) (s : σ) : Except (Failure ε) σ :=
  match x s with
  | .ok _ s => .ok s
  | .error e _ => .error e

/-- Runs a step whose causes are part of a larger error type. -/
def Step.mapError {ε δ σ α : Type} (f : ε → δ) (x : Step ε σ α) : Step δ σ α := fun s =>
  match x s with
  | .ok a s => .ok a s
  | .error e s => .error (e.map f) s

/-- An error as a failure. -/
def Failure.ofExcept {ε α : Type} : Except ε α → Except (Failure ε) α
  | .ok a => .ok a
  | .error e => .error (.error e)

end WeightedCsp

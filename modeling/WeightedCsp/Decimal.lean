/-!
# Decimal numbers as text

Writing is core's `Int.repr` and `Nat.repr`, padded where a name wants a fixed width.  Reading
accepts an optional sign and at least one ASCII digit, goes from left to right, and says at the
first place that cannot be continued why: a character that is no digit wins over a number that
grew too large at the same place.
-/

namespace WeightedCsp.Decimal

/-- Why a text is no number of the wanted range. -/
inductive ReadError where
  /-- There is no character at all. -/
  | empty
  /-- A character is no digit, or a sign stands alone. -/
  | invalidDigit
  /-- The number is above the range. -/
  | tooLarge
  /-- The number is below the range. -/
  | tooSmall
deriving DecidableEq, Repr

/-- The wording of a reading error. -/
def ReadError.message : ReadError → String
  | .empty => "cannot parse integer from empty string"
  | .invalidDigit => "invalid digit found in string"
  | .tooLarge => "number too large to fit in target type"
  | .tooSmall => "number too small to fit in target type"

/-- The value of an ASCII digit. -/
def digit? (c : Char) : Option Nat :=
  if '0' ≤ c ∧ c ≤ '9' then some (c.toNat - '0'.toNat) else none

/-- Reads digits after the value `acc`, up to a limit whose crossing is the given error. -/
def readDigits (limit : Nat) (crossed : ReadError) : Nat → List Char → Except ReadError Nat
  | acc, [] => .ok acc
  | acc, c :: cs =>
    match digit? c with
    | none => .error .invalidDigit
    | some d =>
      if acc * 10 + d ≤ limit then readDigits limit crossed (acc * 10 + d) cs
      else .error crossed

/-- Reads a natural number of at most `limit`; a leading `+` is allowed. -/
def readNat (limit : Nat) (text : String) : Except ReadError Nat :=
  match text.toList with
  | [] => .error .empty
  | ['+'] => .error .invalidDigit
  | '+' :: cs => readDigits limit .tooLarge 0 cs
  | cs => readDigits limit .tooLarge 0 cs

/-- Reads a signed 64-bit integer; a leading `+` or `-` is allowed. -/
def readInt (text : String) : Except ReadError Int :=
  match text.toList with
  | [] => .error .empty
  | ['+'] => .error .invalidDigit
  | ['-'] => .error .invalidDigit
  | '-' :: cs => (readDigits 9223372036854775808 .tooSmall 0 cs).map fun n => -(n : Int)
  | '+' :: cs => (readDigits 9223372036854775807 .tooLarge 0 cs).map fun n => (n : Int)
  | cs => (readDigits 9223372036854775807 .tooLarge 0 cs).map fun n => (n : Int)

/-- The number with zeros in front up to a least width. -/
def padded (width n : Nat) : String :=
  "".pushn '0' (width - n.repr.length) ++ n.repr

end WeightedCsp.Decimal

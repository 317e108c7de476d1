import WeightedCsp.Decimal
import WeightedCsp.Decimal.Shortest
import WeightedCsp.NameMap
import WeightedCsp.Text.Blank
import WeightedCsp.Variable

/-!
# Logs of local search

A log holds, in this order and with any other lines between them: a line with the penalties, a
line with processor times, a line with iteration counts, a heading with the lines of the best
solution after it, and a heading with the lines of the violated constraints after it.  White space
at the end of a line does not count.  A line is read as text only when it is reached.
-/

namespace WeightedCsp

/-- Why a log cannot be read. -/
inductive LogError where
  | missing (item : String)
  | invalidNumber (text : String)
  | invalidText
deriving DecidableEq, Repr

/-- The wording of a log error. -/
def LogError.message : LogError → String
  | .missing item => item ++ " not found in solver log"
  | .invalidNumber text => s!"invalid number in solver log line `{text}`"
  | .invalidText => "stream did not contain valid UTF-8"

/-- What a log says. -/
structure SolverLog where
  /-- The penalty of the hard constraints. -/
  hardPenalty : Nat
  /-- The weighted penalty of the soft constraints. -/
  softPenalty : Nat
  /-- The milliseconds until the best solution was found. -/
  improvedMs : Nat
  /-- The milliseconds in total. -/
  totalMs : Nat
  /-- The iteration that found the best solution. -/
  improvedIteration : Nat
  /-- The number of iterations. -/
  iterations : Nat
  /-- The label of each variable in the best solution. -/
  solution : NameMap String
  /-- The amount by which each violated constraint is violated. -/
  violated : NameMap Int
deriving DecidableEq

namespace SolverLog

/-! ### Pieces of a line -/

/-- What follows a fixed beginning. -/
def after? (tag : String) (cs : List Char) : Option (List Char) :=
  if tag.toList.isPrefixOf cs then some (cs.drop tag.length) else none

/-- The character is an ASCII digit. -/
def isDigit (c : Char) : Bool := '0' ≤ c && c ≤ '9'

/-- The value of digits. -/
def digitsValue (cs : List Char) : Nat := cs.foldl (fun n c => n * 10 + (c.toNat - '0'.toNat)) 0

/-- A run of digits whose value fits 64 bits. -/
def natural? (cs : List Char) : Option (Nat × List Char) :=
  let ds := cs.takeWhile isDigit
  if ds.isEmpty then none
  else
    let n := digitsValue ds
    if n < 18446744073709551616 then some (n, cs.dropWhile isDigit) else none

/-- A number of seconds as it is written. -/
inductive Seconds where
  /-- Not a number. -/
  | nan
  /-- Infinite. -/
  | infinite
  /-- `digits · 10 ^ place` with a sign. -/
  | decimal (negative : Bool) (digits : Nat) (place : Int)
deriving DecidableEq, Repr

/-- The lower-case form of an ASCII letter. -/
def lower (c : Char) : Char := if 'A' ≤ c && c ≤ 'Z' then Char.ofNat (c.toNat + 32) else c

/-- A sign with what follows it. -/
def sign (cs : List Char) : Bool × List Char :=
  match cs with
  | '-' :: rest => (true, rest)
  | '+' :: rest => (false, rest)
  | _ => (false, cs)

/-- The digits before and after a point, with what follows; one of the two has to be there. -/
def mantissa? (cs : List Char) : Option (List Char × List Char × List Char) :=
  let whole := cs.takeWhile isDigit
  let rest := cs.dropWhile isDigit
  match rest with
  | '.' :: more =>
    let fraction := more.takeWhile isDigit
    if whole.isEmpty && fraction.isEmpty then none
    else some (whole, fraction, more.dropWhile isDigit)
  | _ => if whole.isEmpty then none else some (whole, [], rest)

/-- The power of ten after an exponent mark, with what follows; a mark has to have digits. -/
def exponent? (cs : List Char) : Option (Int × List Char) :=
  match cs with
  | c :: more =>
    if c = 'e' || c = 'E' then
      let (negative, more) := sign more
      let ds := more.takeWhile isDigit
      if ds.isEmpty then none
      else
        let n : Int := digitsValue ds
        some (if negative then -n else n, more.dropWhile isDigit)
    else some (0, cs)
  | [] => some (0, [])

/-- A decimal number. -/
def decimal? (cs : List Char) : Option (Seconds × List Char) := do
  let (negative, rest) := sign cs
  let (whole, fraction, rest) ← mantissa? rest
  let (power, rest) ← exponent? rest
  return (.decimal negative (digitsValue (whole ++ fraction)) (power - fraction.length), rest)

/-- A number of seconds: decimal, or one of two words in any case. -/
def seconds? (cs : List Char) : Option (Seconds × List Char) :=
  match sign cs with
  | (_, c :: _) =>
    if isDigit c || c = '.' then decimal? cs
    else
      match (cs.take 3).map lower with
      | ['n', 'a', 'n'] => some (.nan, cs.drop 3)
      | ['i', 'n', 'f'] => some (.infinite, cs.drop 3)
      | _ => none
  | (_, []) => none

/-! ### Times -/

/-- The nearest double to `digits · 10 ^ place`.  Numbers far outside the range are not computed. -/
def toDouble (digits : Nat) (place : Int) : Binary.Number :=
  if digits = 0 then .finite 0 Binary.double.least
  else
    let size : Int := digits.repr.length + place
    if 400 < size then .infinite
    else if size < -400 then .finite 0 Binary.double.least
    else
      let (num, den) := Decimal.tenfold digits 1 place
      Binary.double.round num den

/-- The text of a number of seconds that is refused. -/
def refusedText (number : Binary.Number) : String :=
  match number with
  | .infinite => "-inf"
  | .finite m e =>
    let (digits, place) := Decimal.shortest Binary.double m e
    "-" ++ Decimal.plain digits place

/-- Seconds as milliseconds, to the nearest, a half going up.  Infinite and negative times are
refused; zero with a sign is zero. -/
def milliseconds : Seconds → Except LogError Nat
  | .nan => .error (.invalidNumber "NaN")
  | .infinite => .error (.invalidNumber "inf")
  | .decimal negative digits place =>
    match toDouble digits place with
    | .infinite => .error (.invalidNumber (if negative then "-inf" else "inf"))
    | .finite m e =>
      if negative && m ≠ 0 then .error (.invalidNumber (refusedText (.finite m e)))
      else
        .ok ((Binary.double.mul (.finite m e) (Binary.double.ofNat 1000)).roundHalfUp
          18446744073709551615)

/-! ### Lines -/

/-- Two numbers with a slash between them. -/
def pair? {α : Type} (number : List Char → Option (α × List Char)) (cs : List Char) :
    Option ((α × α) × List Char) := do
  let (a, rest) ← number cs
  let rest ← after? "/" rest
  let (b, rest) ← number rest
  return ((a, b), rest)

/-- The whole line is read. -/
def whole? {α : Type} : Option (α × List Char) → Option α
  | some (a, []) => some a
  | _ => none

/-- The line with the penalties. -/
def penaltyLine? (cs : List Char) : Option (Nat × Nat) := do
  let rest ← after? "# penalty = " cs
  let (hs, rest) ← pair? natural? rest
  let rest ← after? " (hard/soft)" rest
  whole? (some (hs, rest))

/-- The line with the times. -/
def timeLine? (cs : List Char) : Option (Seconds × Seconds) := do
  let rest ← after? "# cpu time = " cs
  let (ab, rest) ← pair? seconds? rest
  let rest ← after? "(s)" rest
  whole? (some (ab, rest))

/-- The line with the iteration counts. -/
def iterationLine? (cs : List Char) : Option (Nat × Nat) := do
  let rest ← after? "# iteration = " cs
  whole? (pair? natural? rest)

/-- A line that is exactly the given text. -/
def heading? (text : String) (cs : List Char) : Option Unit :=
  if cs = text.toList then some () else none

/-- The heading of the best solution. -/
def solutionHeading : String := "[best solution]"

/-- The heading of the violated constraints. -/
def violatedHeading : String := "[Violated constraints]"

/-- The label of an entry: word characters after an optional minus sign. -/
def isLabel : List Char → Bool
  | '-' :: cs => !cs.isEmpty && cs.all Identifier.isWordChar
  | cs => !cs.isEmpty && cs.all Identifier.isWordChar

/-- An entry: an identifier, a colon with a space, and a label. -/
def entryLine? (cs : List Char) : Option (String × String) :=
  let name := cs.takeWhile Identifier.isWordChar
  match cs.dropWhile Identifier.isWordChar with
  | ':' :: ' ' :: label =>
    if Identifier.isValidList name && isLabel label then
      some (String.ofList name, String.ofList label)
    else none
  | _ => none

/-! ### Logs -/

/-- A line of a log as bytes. -/
abbrev RawLine : Type := List UInt8

/-- The lines of a log: each ends at a line feed, except perhaps the last. -/
def rawLines : RawLine → List UInt8 → List RawLine
  | [], [] => []
  | line, [] => [line.reverse]
  | line, b :: bs => if b = 10 then line.reverse :: rawLines [] bs else rawLines (b :: line) bs

/-- The text of a line without the white space at its end. -/
def lineText (line : RawLine) : Except LogError (List Char) :=
  match String.fromUTF8? (ByteArray.mk line.toArray) with
  | some s => .ok (Text.trimEnd s.toList)
  | none => .error .invalidText

/-- The first line of a kind, with the lines after it. -/
def findLine {α : Type} (kind : List Char → Option α) (item : String) :
    List RawLine → Except LogError (α × List RawLine)
  | [] => .error (.missing item)
  | line :: rest => do
    match kind (← lineText line) with
    | some a => return (a, rest)
    | none => findLine kind item rest

/-- Entries up to the first line that is none, with that line and the lines after it. -/
def readEntries {α : Type} (value : String → String → Except LogError α) :
    List RawLine → Except LogError (List (String × α) × Option (List Char) × List RawLine)
  | [] => .ok ([], none, [])
  | line :: rest => do
    let text ← lineText line
    match entryLine? text with
    | none => return ([], some text, rest)
    | some (name, label) => do
      let v ← value name label
      let (entries, trailer, rest) ← readEntries value rest
      return ((name, v) :: entries, trailer, rest)

/-- The amount of an entry. -/
def amount (name label : String) : Except LogError Int :=
  match Decimal.readInt label with
  | .ok v => .ok v
  | .error _ => .error (.invalidNumber (name ++ ": " ++ label))

/-- Reads the lines of a log. -/
def ofLines (lines : List RawLine) : Except LogError SolverLog := do
  let ((hard, soft), lines) ← findLine penaltyLine? "penalty" lines
  let ((improved, total), lines) ← findLine timeLine? "cpu time" lines
  let improvedMs ← milliseconds improved
  let totalMs ← milliseconds total
  let ((improvedIteration, iterations), lines) ← findLine iterationLine? "iteration" lines
  let (_, lines) ← findLine (heading? solutionHeading) "best solution" lines
  let (solution, trailer, lines) ← readEntries (fun _ label => .ok label) lines
  let lines ←
    if trailer = some violatedHeading.toList then pure lines
    else do
      let (_, lines) ← findLine (heading? violatedHeading) "violated constraints" lines
      pure lines
  let (violated, _, _) ← readEntries amount lines
  return ⟨hard, soft, improvedMs, totalMs, improvedIteration, iterations, NameMap.ofList solution,
    NameMap.ofList violated⟩

/-- Reads a log. -/
def parse (bytes : List UInt8) : Except LogError SolverLog := ofLines (rawLines [] bytes)

end SolverLog

end WeightedCsp

import WeightedCsp.Binary

/-!
# Shortest decimals

The decimal of a binary number is the one with the fewest digits that is rounded to the number
again, and of those the nearest, a tie going up.  A number `m · 2 ^ e` is what every real between
its two half-way points to the neighbouring numbers rounds to; the half-way points themselves
round to it when `m` is even.  On the grid of decimals with a given number of digits only the two
neighbours of the number need to be tried, since every other point of the grid is farther away on
the same side.
-/

namespace WeightedCsp.Decimal

open Binary

/-- `num / den · 10 ^ place` as a quotient. -/
def tenfold (num den : Nat) (place : Int) : Nat × Nat :=
  if 0 ≤ place then (num * Nat.pow 10 place.toNat, den) else (num, den * Nat.pow 10 (-place).toNat)

/-- Four times a number and its two half-way points, over a common denominator. -/
structure Bracket where
  /-- The half-way point below. -/
  low : Nat
  /-- The number. -/
  value : Nat
  /-- The half-way point above. -/
  high : Nat
  /-- The denominator. -/
  den : Nat
  /-- The half-way points belong to the number. -/
  closed : Bool

/-- The reals that round to `mantissa · 2 ^ exponent`.  Below a power of two the neighbour is half
as far away. -/
def Bracket.of (f : Format) (mantissa : Nat) (exponent : Int) : Bracket :=
  let narrow := mantissa = 1 <<< (f.precision - 1) && f.least < exponent
  let (n, d) := quotient 1 exponent
  { low := (4 * mantissa - if narrow then 1 else 2) * n
    value := 4 * mantissa * n
    high := (4 * mantissa + 2) * n
    den := 4 * d
    closed := mantissa % 2 = 0 }

/-- `digits · 10 ^ place` lies in the bracket. -/
def Bracket.holds (b : Bracket) (digits : Nat) (place : Int) : Bool :=
  let (n, d) := tenfold digits 1 place
  let x := n * b.den
  let lo := b.low * d
  let hi := b.high * d
  if b.closed then lo ≤ x && x ≤ hi else lo < x && x < hi

/-- The digits of the two neighbours of the number on the grid of `10 ^ place`, the nearer one
first, and of two equally near the greater. -/
def Bracket.neighbours (b : Bracket) (place : Int) : List Nat :=
  let (n, d) := tenfold b.value b.den (-place)
  let q := n / d
  if 2 * (n % d) < d then [q, q + 1] else [q + 1, q]

/-- The least `k` with `num / den < 10 ^ k`, searched from `k` upwards. -/
def magnitudeFrom (num den : Nat) : Nat → Int → Int
  | 0, k => k
  | fuel + 1, k =>
    let (n, d) := tenfold num den (-k)
    if n < d then k else magnitudeFrom num den fuel (k + 1)

/-- Digits and place of the shortest decimal, from a number of digits on. -/
def Bracket.search (b : Bracket) (top : Int) : Nat → Nat → Nat × Int
  | 0, count => (b.value / b.den, top - count)
  | fuel + 1, count =>
    let place := top - count
    match (b.neighbours place).find? fun digits => b.holds digits place with
    | some digits => (digits, place)
    | none => b.search top fuel (count + 1)

/-- Digits and place of the shortest decimal of a positive number: `digits · 10 ^ place`. -/
def shortest (f : Format) (mantissa : Nat) (exponent : Int) : Nat × Int :=
  let b := Bracket.of f mantissa exponent
  let top := magnitudeFrom b.value b.den 700 (-330)
  b.search top 17 1

/-- `digits · 10 ^ place` without an exponent. -/
def plain (digits : Nat) (place : Int) : String :=
  if 0 ≤ place then digits.repr ++ "".pushn '0' place.toNat
  else
    let fraction := (-place).toNat
    let ds := digits.repr
    let ds := "".pushn '0' (fraction + 1 - ds.length) ++ ds
    let whole := String.ofList (ds.toList.take (ds.length - fraction))
    let rest := String.ofList (ds.toList.drop (ds.length - fraction))
    whole ++ "." ++ rest

end WeightedCsp.Decimal

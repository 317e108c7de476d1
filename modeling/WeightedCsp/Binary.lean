/-!
# Binary floating-point numbers

A non-negative number of a binary format is `mantissa · 2 ^ exponent` with a mantissa of at most
`precision` bits and an exponent between the least and the greatest of the format, or it is
infinite.  `Format.round` takes an exact quotient to the nearest number of the format, a half going
to the even mantissa.  Every operation is an exact one followed by this rounding.
-/

namespace WeightedCsp.Binary

/-- A binary format. -/
structure Format where
  /-- The number of bits of a mantissa. -/
  precision : Nat
  /-- The least exponent of the last bit, below zero. -/
  least : Int
  /-- The greatest exponent of the last bit. -/
  greatest : Int

/-- The format of 32 bits. -/
def single : Format := ⟨24, -149, 104⟩

/-- The format of 64 bits. -/
def double : Format := ⟨53, -1074, 971⟩

/-- A non-negative number of a binary format. -/
inductive Number where
  | finite (mantissa : Nat) (exponent : Int)
  | infinite
deriving DecidableEq, Repr

/-- `num / den · 2 ^ (-e)` as a quotient. -/
def scale (num den : Nat) (e : Int) : Nat × Nat :=
  if 0 ≤ e then (num, den <<< e.toNat) else (num <<< (-e).toNat, den)

/-- The quotient rounded to the nearest natural number, a half to the even one. -/
def divHalfEven (num den : Nat) : Nat :=
  let q := num / den
  let r := 2 * (num % den)
  if r < den then q
  else if den < r then q + 1
  else q + q % 2

/-- The greatest `k` with `2 ^ k ≤ num / den`, for positive numbers. -/
def floorLog (num den : Nat) : Int :=
  let k : Int := (num.log2 : Int) - den.log2
  let (n, d) := scale num den k
  if n < d then k - 1 else k

/-- The nearest number of the format to `num / den`. -/
def Format.round (f : Format) (num den : Nat) : Number :=
  if num = 0 then .finite 0 f.least
  else
    let e := max f.least (floorLog num den - (f.precision - 1))
    let (n, d) := scale num den e
    let m := divHalfEven n d
    let (m, e) := if m = 1 <<< f.precision then (m / 2, e + 1) else (m, e)
    if f.greatest < e then .infinite else .finite m e

/-- `mantissa · 2 ^ exponent` as a quotient. -/
def quotient (mantissa : Nat) (exponent : Int) : Nat × Nat := scale mantissa 1 (-exponent)

/-- The nearest number of the format to a natural number. -/
def Format.ofNat (f : Format) (n : Nat) : Number := f.round n 1

/-- The product. -/
def Format.mul (f : Format) : Number → Number → Number
  | .finite m e, .finite n d =>
    let (num, den) := quotient (m * n) (e + d)
    f.round num den
  | _, _ => .infinite

/-- The sum. -/
def Format.add (f : Format) : Number → Number → Number
  | .finite m e, .finite n d =>
    let (a, b) := quotient m e
    let (a', b') := quotient n d
    f.round (a * b' + a' * b) (b * b')
  | _, _ => .infinite

/-- The quotient by a number that is not zero. -/
def Format.div (f : Format) : Number → Number → Number
  | .finite m e, .finite n d =>
    let (a, b) := quotient m e
    let (a', b') := quotient n d
    f.round (a * b') (b * a')
  | _, _ => .infinite

/-- The bit pattern of a number: the biased exponent, then the mantissa without its leading bit. -/
def Format.toBits (f : Format) : Number → Nat
  | .finite m e =>
    let leading := 1 <<< (f.precision - 1)
    if m < leading then m else (e - f.least + 1).toNat * leading + (m - leading)
  | .infinite => (f.greatest - f.least + 2).toNat <<< (f.precision - 1)

/-- The number rounded to the nearest natural number, a half going up, or `limit` if that is
smaller. -/
def Number.roundHalfUp (limit : Nat) : Number → Nat
  | .finite m e =>
    let (num, den) := quotient m e
    min ((2 * num + den) / (2 * den)) limit
  | .infinite => limit

end WeightedCsp.Binary

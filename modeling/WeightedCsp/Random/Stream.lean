import WeightedCsp.Random.ChaCha
import WeightedCsp.Random.Draws

/-!
# Draws from a seed

A seed is spread into a key by a linear congruence with permuted output.  The blocks of that key,
one after the other, are one stream of 32-bit words, from which all draws are taken; a 64-bit word
takes two, the low half first.

A number from a range of `r` values is the high part of the product of a word with `r`.  If the low
part is so large that a finer word could carry into the high part, a second word decides.
-/

namespace WeightedCsp

/-- What is left of a stream. -/
structure Stream where
  /-- The key. -/
  key : List UInt32
  /-- The number of the next block. -/
  counter : Nat
  /-- The words of the current block that are left. -/
  words : List UInt32

namespace Stream

/-! ### Seeds -/

/-- One step of the congruence. -/
def spread (s : Nat) : Nat :=
  (s * 6364136223846793005 + 11634580027462260723) % 18446744073709551616

/-- The word that a state of the congruence gives: its high bits, turned to the right by a number
of bits that its highest five give. -/
def wordOf (s : Nat) : UInt32 :=
  let x := ((s >>> 18 ^^^ s) >>> 27) % 4294967296
  let turn := s >>> 59
  (x >>> turn + (x <<< (32 - turn)) % 4294967296).toUInt32

/-- The next `n` words of the congruence after a state. -/
def keyWords : Nat → Nat → List UInt32
  | 0, _ => []
  | n + 1, s =>
    let s := spread s
    wordOf s :: keyWords n s

/-- The stream of a seed. -/
def ofSeed (seed : Nat) : Stream := ⟨keyWords 8 seed, 0, []⟩

/-! ### Words -/

/-- The next 32-bit word. -/
def word32 (s : Stream) : Nat × Stream :=
  match s.words with
  | w :: rest => (w.toNat, { s with words := rest })
  | [] =>
    let counter := (s.counter + 1) % 18446744073709551616
    match ChaCha.block s.key s.counter with
    | w :: rest => (w.toNat, { s with counter := counter, words := rest })
    | [] => (0, { s with counter := counter })

/-- The next 64-bit word. -/
def word64 (s : Stream) : Nat × Stream :=
  let (low, s) := s.word32
  let (high, s) := s.word32
  (low + high * 4294967296, s)

/-! ### Draws -/

/-- A number below `r`, from words below `2 ^ bits`; for `r = 0` any word. -/
def below (bits : Nat) (word : Stream → Nat × Stream) (r : Nat) (s : Stream) : Nat × Stream :=
  let (w, s) := word s
  if r = 0 then (w, s)
  else
    let base := 1 <<< bits
    let low := w * r % base
    let high := w * r / base
    if base - r < low then
      let (w, s) := word s
      (if base ≤ low + w * r / base then high + 1 else high, s)
    else (high, s)

/-- The value of a 64-bit word with a sign. -/
def signed (n : Nat) : Int := if n < 9223372036854775808 then n else n - 18446744073709551616

/-- A size from a range. -/
def size (lo hi : Nat) (s : Stream) : Nat × Stream :=
  let (n, s) := below 32 word32 ((hi - lo + 1) % 4294967296) s
  (lo + n, s)

/-- An integer from a range; in the range of all machine integers it is the word itself. -/
def int (lo hi : Int) (s : Stream) : Int × Stream :=
  let r := (hi - lo + 1).toNat % 18446744073709551616
  let (n, s) := below 64 word64 r s
  (if r = 0 then signed n else lo + n, s)

/-- A coin: a word below the number of its cases. -/
def coin (p : Chance) (s : Stream) : Bool × Stream :=
  let (w, s) := s.word64
  (decide (w < p.cases), s)

/-- The stream as a source of draws. -/
def draws : Draws Stream := ⟨coin, size, int⟩

end Stream

end WeightedCsp

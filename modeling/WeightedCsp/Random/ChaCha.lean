/-!
# Blocks of the ChaCha stream

A block is a function of a key of eight words and a counter.  The sixteen words of the state go
through four double rounds, each of eight quarter rounds on columns and diagonals, and the state is
added to the result.
-/

namespace WeightedCsp.ChaCha

/-- A word turned to the left by `n` bits, with `n` between one and 31. -/
def rotateLeft (x n : UInt32) : UInt32 := (x <<< n) ||| (x >>> (32 - n))

/-- Adds, mixes and turns four words. -/
def quarter (a b c d : UInt32) : UInt32 × UInt32 × UInt32 × UInt32 :=
  let a := a + b
  let d := rotateLeft (d ^^^ a) 16
  let c := c + d
  let b := rotateLeft (b ^^^ c) 12
  let a := a + b
  let d := rotateLeft (d ^^^ a) 8
  let c := c + d
  let b := rotateLeft (b ^^^ c) 7
  (a, b, c, d)

/-- The places of four words. -/
structure Places where
  a : Nat
  b : Nat
  c : Nat
  d : Nat

/-- The quarter rounds of a double round: columns, then diagonals. -/
def places : List Places :=
  [ ⟨0, 4, 8, 12⟩, ⟨1, 5, 9, 13⟩, ⟨2, 6, 10, 14⟩, ⟨3, 7, 11, 15⟩,
    ⟨0, 5, 10, 15⟩, ⟨1, 6, 11, 12⟩, ⟨2, 7, 8, 13⟩, ⟨3, 4, 9, 14⟩ ]

/-- A quarter round on four places of a state. -/
def quarterAt (s : Array UInt32) (p : Places) : Array UInt32 :=
  let (a, b, c, d) := quarter (s.getD p.a 0) (s.getD p.b 0) (s.getD p.c 0) (s.getD p.d 0)
  (((s.setIfInBounds p.a a).setIfInBounds p.b b).setIfInBounds p.c c).setIfInBounds p.d d

/-- A double round. -/
def doubleRound (s : Array UInt32) : Array UInt32 := places.foldl quarterAt s

/-- Several double rounds. -/
def rounds : Nat → Array UInt32 → Array UInt32
  | 0, s => s
  | n + 1, s => rounds n (doubleRound s)

/-- The words that begin every state. -/
def constants : List UInt32 := [0x61707865, 0x3320646e, 0x79622d32, 0x6b206574]

/-- The state of a key and a 64-bit counter. -/
def initial (key : List UInt32) (counter : Nat) : Array UInt32 :=
  (constants ++ key ++ [counter.toUInt32, (counter / 4294967296).toUInt32, 0, 0]).toArray

/-- The block of a key and a counter. -/
def block (key : List UInt32) (counter : Nat) : List UInt32 :=
  let s := initial key counter
  (s.toList.zip (rounds 4 s).toList).map fun (a, b) => a + b

end WeightedCsp.ChaCha

import WeightedCsp.Word

/-!
# Sources of draws

What a generator needs of chance: coins, and numbers from a range.  A generator is written over any
source, so what is proven of it holds for every outcome of the draws; that outcomes lie in the
ranges they were drawn from is `Draws.InRange`.
-/

namespace WeightedCsp

/-- How likely a coin is to fall true, as a number of cases out of `2 ^ 64`. -/
structure Chance where
  /-- The number of cases. -/
  cases : Nat
deriving DecidableEq, Repr

namespace Chance

/-- Every second time. -/
def half : Chance := ⟨9223372036854775808⟩

/-- Every fifth time, up to the rounding of a fifth to 53 bits. -/
def fifth : Chance := ⟨3689348814741910528⟩

end Chance

/-- A source of draws with states of type `σ`. -/
structure Draws (σ : Type) where
  /-- A coin. -/
  coin : Chance → σ → Bool × σ
  /-- A size from the first to the second, both included. -/
  size : Nat → Nat → σ → Nat × σ
  /-- An integer from the first to the second, both included. -/
  int : Int → Int → σ → Int × σ

/-- Drawn numbers lie in the range they were drawn from. -/
structure Draws.InRange {σ : Type} (d : Draws σ) : Prop where
  /-- Sizes do. -/
  size : ∀ lo hi s, lo ≤ hi → lo ≤ (d.size lo hi s).1 ∧ (d.size lo hi s).1 ≤ hi
  /-- Machine integers do. -/
  int : ∀ lo hi s, Word.InRange lo → Word.InRange hi → lo ≤ hi →
    lo ≤ (d.int lo hi s).1 ∧ (d.int lo hi s).1 ≤ hi

/-- A computation that draws, and faults on an empty range. -/
abbrev Drawing (σ : Type) : Type → Type := EStateM Fault σ

namespace Drawing

variable {σ : Type}

/-- Draws a coin. -/
def coin (d : Draws σ) (p : Chance) : Drawing σ Bool := fun s =>
  let (b, s) := d.coin p s
  .ok b s

/-- Draws a size. -/
def size (d : Draws σ) (lo hi : Nat) : Drawing σ Nat := fun s =>
  if lo ≤ hi then
    let (n, s) := d.size lo hi s
    .ok n s
  else .error .emptyRange s

/-- Draws an integer. -/
def int (d : Draws σ) (lo hi : Int) : Drawing σ Int := fun s =>
  if lo ≤ hi then
    let (n, s) := d.int lo hi s
    .ok n s
  else .error .emptyRange s

end Drawing

end WeightedCsp

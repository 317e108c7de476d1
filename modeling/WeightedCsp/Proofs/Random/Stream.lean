import Mathlib.Algebra.Group.Nat.Defs
import Mathlib.Data.Nat.Basic
import Mathlib.Tactic.SplitIfs
import WeightedCsp.Random.Stream

/-!
# The stream draws from the range

The numbers that are drawn from the stream of a seed lie in the range they were drawn from
(`Stream.inRange_draws`).  A number below `r` is the high part of a word times `r`.  The carry of
the second word cannot lift it to `r`, because a product whose high part is the greatest leaves a
low part that is too small for a carry to be considered (`below_lt`).
-/

namespace WeightedCsp.Stream

theorem word32_lt (s : Stream) : s.word32.1 < 2 ^ 32 := by
  unfold word32
  cases s.words with
  | cons w rest => exact w.toNat_lt
  | nil =>
    dsimp only
    cases ChaCha.block s.key s.counter with
    | cons w rest => exact w.toNat_lt
    | nil => exact Nat.two_pow_pos 32

theorem word64_lt (s : Stream) : s.word64.1 < 2 ^ 64 := by
  have hlow := s.word32_lt
  have hhigh := s.word32.2.word32_lt
  unfold word64
  dsimp only
  omega

/-- The product of a word with `r` has a high part below `r`. -/
theorem high_lt {base r w : Nat} (hr : 0 < r) (hw : w < base) : w * r / base < r := by
  apply Nat.div_lt_of_lt_mul
  exact Nat.mul_lt_mul_of_pos_right hw hr

/-- If the high part is the greatest, the low part is at most `base - r`. -/
theorem low_le_of_high {base r w : Nat} (hw : w < base) (hhigh : r ≤ w * r / base + 1) :
    w * r % base ≤ base - r := by
  have hproduct : base * (w * r / base) + w * r % base = w * r := Nat.div_add_mod _ _
  have hword : w * r + r ≤ base * r := by
    rw [← Nat.succ_mul]
    exact Nat.mul_le_mul_right r hw
  have hlift : base * r ≤ base * (w * r / base) + base := by
    rw [← Nat.mul_succ]
    exact Nat.mul_le_mul_left base hhigh
  omega

/-- A number is drawn below its bound. -/
theorem below_lt {bits r : Nat} {word : Stream → Nat × Stream}
    (hword : ∀ s, (word s).1 < 2 ^ bits) (hr : 0 < r) (s : Stream) :
    (below bits word r s).1 < r := by
  have hw : (word s).1 < 1 <<< bits := by
    rw [Nat.one_shiftLeft]
    exact hword s
  have hhigh := high_lt hr hw
  unfold below
  dsimp only
  rw [if_neg (Nat.ne_of_gt hr)]
  split_ifs with hcarry hlift
  · -- A carry is considered, so the high part is not the greatest.
    by_contra hge
    have hlow := low_le_of_high hw (Nat.not_lt.1 hge)
    omega
  · exact hhigh
  · exact hhigh

theorem below_zero (bits : Nat) (word : Stream → Nat × Stream) (s : Stream) :
    below bits word 0 s = word s := rfl

/-- A size is drawn from its range. -/
theorem size_mem (lo hi : Nat) (s : Stream) (h : lo ≤ hi) :
    lo ≤ (size lo hi s).1 ∧ (size lo hi s).1 ≤ hi := by
  show lo ≤ lo + (below 32 word32 ((hi - lo + 1) % 4294967296) s).1 ∧
    lo + (below 32 word32 ((hi - lo + 1) % 4294967296) s).1 ≤ hi
  rcases Nat.eq_zero_or_pos ((hi - lo + 1) % 4294967296) with hzero | hpos
  · -- The number of values is a multiple of the number of words, so every word will do.
    have hw := word32_lt s
    rw [hzero, below_zero]
    omega
  · have hlt := below_lt word32_lt hpos s
    omega

/-- An integer is drawn from its range. -/
theorem int_mem (lo hi : Int) (s : Stream) (hlo : Word.InRange lo) (hhi : Word.InRange hi)
    (h : lo ≤ hi) : lo ≤ (int lo hi s).1 ∧ (int lo hi s).1 ≤ hi := by
  unfold Word.InRange Word.least Word.greatest at hlo hhi
  unfold int
  dsimp only
  split_ifs with hzero
  · -- Only the range of all machine integers has as many values as there are words.
    have hw := word64_lt s
    rw [hzero, below_zero]
    unfold signed
    split_ifs <;> omega
  · have hlt := below_lt word64_lt (Nat.pos_of_ne_zero hzero) s
    omega

theorem inRange_draws : draws.InRange := ⟨size_mem, int_mem⟩

end WeightedCsp.Stream

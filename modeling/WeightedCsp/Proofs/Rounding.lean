import Mathlib.Algebra.Order.Field.Basic
import Mathlib.Algebra.Order.Field.Power
import Mathlib.Algebra.Order.Field.Rat
import Mathlib.Tactic.FieldSimp
import Mathlib.Tactic.Linarith
import Mathlib.Tactic.NormNum
import Mathlib.Tactic.Ring
import WeightedCsp.Binary

/-!
# The ends of a binary format

Rounding to the nearest number of a format leaves its range at both ends.  A number is infinite
from half a step above the greatest finite number on (`Format.round_eq_infinite_iff`), and zero up
to half of the least positive one (`Format.round_eq_zero_iff`); at either end a half goes to the
even mantissa, which is the outer one.
-/

namespace WeightedCsp.Binary

variable {num den : Nat} {e : Int}

/-! ### Quotients -/

theorem scale_pos (num : Nat) (hden : den ≠ 0) (e : Int) : 0 < (scale num den e).2 := by
  unfold scale
  split_ifs
  · rw [Nat.shiftLeft_eq]
    positivity
  · exact Nat.pos_of_ne_zero hden

theorem scale_div (num den : Nat) (e : Int) :
    ((scale num den e).1 : ℚ) / (scale num den e).2 = num / den / 2 ^ e := by
  unfold scale
  split_ifs with he
  · obtain ⟨n, rfl⟩ := Int.eq_ofNat_of_zero_le he
    simp [Nat.shiftLeft_eq, div_div]
  · obtain ⟨n, hn⟩ := Int.eq_ofNat_of_zero_le (show 0 ≤ -e by omega)
    obtain rfl : e = -n := by omega
    simp only [neg_neg, Int.toNat_natCast, Nat.shiftLeft_eq, zpow_neg, div_inv_eq_mul, zpow_natCast]
    push_cast
    ring

/-- `floorLog` is the exponent of the greatest power of two up to the quotient. -/
theorem floorLog_spec (hnum : num ≠ 0) (hden : den ≠ 0) :
    (2 : ℚ) ^ floorLog num den ≤ num / den ∧ (num : ℚ) / den < 2 ^ (floorLog num den + 1) := by
  have hnum₁ : (2 : ℚ) ^ (num.log2 : Int) ≤ num := by exact_mod_cast Nat.log2_self_le hnum
  have hnum₂ : (num : ℚ) < 2 ^ ((num.log2 : Int) + 1) := by exact_mod_cast Nat.lt_log2_self
  have hden₁ : (2 : ℚ) ^ (den.log2 : Int) ≤ den := by exact_mod_cast Nat.log2_self_le hden
  have hden₂ : (den : ℚ) < 2 ^ ((den.log2 : Int) + 1) := by exact_mod_cast Nat.lt_log2_self
  have hpos : (0 : ℚ) < den := by positivity
  -- The difference of the two logarithms is too great by one at most.
  have hlow : (2 : ℚ) ^ ((num.log2 : Int) - den.log2 - 1) ≤ num / den := by
    rw [le_div_iff₀ hpos]
    calc (2 : ℚ) ^ ((num.log2 : Int) - den.log2 - 1) * den
        ≤ 2 ^ ((num.log2 : Int) - den.log2 - 1) * 2 ^ ((den.log2 : Int) + 1) := by gcongr
      _ = 2 ^ (num.log2 : Int) := by
        rw [← zpow_add₀ (by norm_num)]
        congr 1
        ring
      _ ≤ num := hnum₁
  have hhigh : (num : ℚ) / den < 2 ^ ((num.log2 : Int) - den.log2 + 1) := by
    rw [div_lt_iff₀ hpos]
    calc (num : ℚ) < 2 ^ ((num.log2 : Int) + 1) := hnum₂
      _ = 2 ^ ((num.log2 : Int) - den.log2 + 1) * 2 ^ (den.log2 : Int) := by
        rw [← zpow_add₀ (by norm_num)]
        congr 1
        ring
      _ ≤ 2 ^ ((num.log2 : Int) - den.log2 + 1) * den := by gcongr
  have hscale := scale_div num den ((num.log2 : Int) - den.log2)
  have hscaled : (0 : ℚ) < (scale num den ((num.log2 : Int) - den.log2)).2 := by
    exact_mod_cast scale_pos num hden _
  have hlt : (scale num den ((num.log2 : Int) - den.log2)).1 <
      (scale num den ((num.log2 : Int) - den.log2)).2 ↔
      (num : ℚ) / den < 2 ^ ((num.log2 : Int) - den.log2) := by
    rw [← Nat.cast_lt (α := ℚ), ← div_lt_one₀ hscaled, hscale, div_lt_one₀ (by positivity)]
  simp only [floorLog, hlt]
  split_ifs with h
  · exact ⟨hlow, by rwa [Int.sub_add_cancel]⟩
  · exact ⟨not_lt.1 h, hhigh⟩

/-! ### Halves -/

/-- The halves in a quotient, counted. -/
theorem two_mul_div (hden : den ≠ 0) :
    2 * num / den = 2 * (num / den) + if 2 * (num % den) < den then 0 else 1 := by
  have hpos := Nat.pos_of_ne_zero hden
  have hmod := Nat.mod_lt num hpos
  have hsplit : 2 * num = 2 * (num % den) + den * (2 * (num / den)) := by
    have := Nat.div_add_mod num den
    rw [Nat.mul_left_comm]
    omega
  rw [hsplit, Nat.add_mul_div_left _ _ hpos, Nat.add_comm]
  split_ifs with h
  · rw [Nat.div_eq_of_lt h]
  · have hone : 2 * (num % den) / den = 1 := Nat.div_eq_of_lt_le (by omega) (by omega)
    rw [hone]

/-- An even number is reached from the half before it on. -/
theorem le_divHalfEven_iff (hden : den ≠ 0) {k : Nat} (hk : 0 < k) (heven : k % 2 = 0) :
    k ≤ divHalfEven num den ↔ ((2 * k - 1 : ℕ) : ℚ) / 2 ≤ num / den := by
  have hpos := Nat.pos_of_ne_zero hden
  have hcast : ((2 * k - 1 : ℕ) : ℚ) / 2 ≤ num / den ↔ (2 * k - 1) * den ≤ 2 * num := by
    rw [div_le_div_iff₀ (by norm_num) (by positivity), mul_comm (num : ℚ)]
    exact_mod_cast Iff.rfl
  rw [hcast, ← Nat.le_div_iff_mul_le hpos, two_mul_div hden]
  simp only [divHalfEven]
  split_ifs <;> omega

/-- Below a natural number, a quotient is rounded to that number at most. -/
theorem divHalfEven_le (hden : den ≠ 0) {k : Nat} (h : (num : ℚ) / den < k) :
    divHalfEven num den ≤ k := by
  have hpos : (0 : ℚ) < den := by positivity
  have hlt : num < den * k := by
    rw [div_lt_iff₀ hpos, mul_comm] at h
    exact_mod_cast h
  have hdiv : num / den < k := Nat.div_lt_of_lt_mul hlt
  simp only [divHalfEven]
  split_ifs <;> omega

/-- Up to one half, a quotient is rounded to zero. -/
theorem divHalfEven_eq_zero_iff (hden : den ≠ 0) :
    divHalfEven num den = 0 ↔ (num : ℚ) / den ≤ 1 / 2 := by
  have hpos := Nat.pos_of_ne_zero hden
  have hcast : (num : ℚ) / den ≤ 1 / 2 ↔ 2 * num ≤ den := by
    rw [div_le_div_iff₀ (by positivity) (by norm_num), mul_comm (num : ℚ), one_mul]
    exact_mod_cast Iff.rfl
  rw [hcast]
  simp only [divHalfEven]
  rcases Nat.lt_or_ge num den with hlt | hge
  · rw [Nat.div_eq_of_lt hlt, Nat.mod_eq_of_lt hlt]
    split_ifs with hless hmore
    · exact iff_of_true rfl (by omega)
    · exact iff_of_false not_false (by omega)
    · exact iff_of_true rfl (by omega)
  · have hdiv : 0 < num / den := Nat.div_pos hge hpos
    refine iff_of_false ?_ (by omega)
    split_ifs
    · omega
    · exact not_false
    · omega

/-! ### Both ends -/

namespace Format

variable {f : Format}

/-- The exponent of the last bit, before rounding. -/
def place (f : Format) (num den : Nat) : Int := max f.least (floorLog num den - (f.precision - 1))

/-- The mantissa, where rounding may take it to the next power of two. -/
def mantissa (f : Format) (num den : Nat) : Nat :=
  divHalfEven (scale num den (f.place num den)).1 (scale num den (f.place num den)).2

theorem round_of_ne_zero (hnum : num ≠ 0) :
    f.round num den =
      if f.mantissa num den = 2 ^ f.precision then
        if f.greatest < f.place num den + 1 then .infinite
        else .finite (f.mantissa num den / 2) (f.place num den + 1)
      else if f.greatest < f.place num den then .infinite
      else .finite (f.mantissa num den) (f.place num den) := by
  have hround : f.round num den =
      (fun r => if f.greatest < r.2 then Number.infinite else .finite r.1 r.2)
        (if f.mantissa num den = 2 ^ f.precision then
          (f.mantissa num den / 2, f.place num den + 1)
        else (f.mantissa num den, f.place num den)) := by
    rw [round, if_neg hnum]
    simp only [Nat.one_shiftLeft]
    rfl
  rw [hround]
  by_cases h : f.mantissa num den = 2 ^ f.precision <;> simp only [h, ↓reduceIte]

/-- The quotient is below `2 ^ precision` times a unit of its last place. -/
theorem div_lt_place (hnum : num ≠ 0) (hden : den ≠ 0) :
    (num : ℚ) / den < 2 ^ (f.place num den + f.precision) := by
  refine (floorLog_spec hnum hden).2.trans_le (zpow_le_zpow_right₀ (by norm_num) ?_)
  unfold place
  omega

/-- Unless the last place is the least one, the mantissa has all its bits. -/
theorem place_le_div (hnum : num ≠ 0) (hden : den ≠ 0) (h : f.least < f.place num den) :
    (2 : ℚ) ^ (f.place num den + f.precision - 1) ≤ num / den := by
  refine le_trans (zpow_le_zpow_right₀ (by norm_num) ?_) (floorLog_spec hnum hden).1
  unfold place at h ⊢
  omega

theorem mantissa_eq_iff (hprecision : 0 < f.precision) (hnum : num ≠ 0) (hden : den ≠ 0) :
    f.mantissa num den = 2 ^ f.precision ↔
      (2 ^ (f.precision + 1) - 1) * 2 ^ (f.place num den - 1) ≤ (num : ℚ) / den := by
  have hd := (scale_pos num hden (f.place num den)).ne'
  have hunit : (0 : ℚ) < 2 ^ f.place num den := by positivity
  have heven : 2 ^ f.precision % 2 = 0 := by
    obtain ⟨p, hp⟩ := Nat.exists_eq_succ_of_ne_zero hprecision.ne'
    rw [hp, Nat.pow_succ]
    omega
  -- The quotient is below `2 ^ precision` units, so no mantissa is greater.
  have hle : f.mantissa num den ≤ 2 ^ f.precision := by
    refine divHalfEven_le hd ?_
    rw [scale_div, div_lt_iff₀ hunit, Nat.cast_pow, Nat.cast_two, ← zpow_natCast,
      ← zpow_add₀ (by norm_num), add_comm]
    exact div_lt_place hnum hden
  have hreach : 2 ^ f.precision ≤ f.mantissa num den ↔ _ :=
    le_divHalfEven_iff hd (Nat.two_pow_pos f.precision) heven
  rw [scale_div, le_div_iff₀ hunit] at hreach
  have hhalf : ((2 * 2 ^ f.precision - 1 : ℕ) : ℚ) / 2 * 2 ^ f.place num den =
      (2 ^ (f.precision + 1) - 1) * 2 ^ (f.place num den - 1) := by
    rw [Nat.cast_sub (by have := Nat.two_pow_pos f.precision; omega),
      zpow_sub₀ (by norm_num : (2 : ℚ) ≠ 0)]
    push_cast
    ring
  rw [← hhalf, ← hreach]
  exact ⟨fun h => h.ge, fun h => le_antisymm hle h⟩

theorem mantissa_eq_zero_iff (hden : den ≠ 0) :
    f.mantissa num den = 0 ↔ (num : ℚ) / den ≤ 2 ^ (f.place num den - 1) := by
  have hunit : (0 : ℚ) < 2 ^ f.place num den := by positivity
  rw [mantissa, divHalfEven_eq_zero_iff (scale_pos num hden _).ne', scale_div, div_le_iff₀ hunit,
    zpow_sub₀ (by norm_num : (2 : ℚ) ≠ 0), zpow_one, one_div_mul_eq_div]

/-- **Overflow.** A quotient is infinite from half a step above the greatest finite number on. -/
theorem round_eq_infinite_iff (hprecision : 0 < f.precision) (hrange : f.least ≤ f.greatest)
    (hden : den ≠ 0) :
    f.round num den = .infinite ↔
      (2 ^ (f.precision + 1) - 1) * 2 ^ (f.greatest - 1) ≤ (num : ℚ) / den := by
  have hunit : (0 : ℚ) < 2 ^ (f.greatest - 1) := by positivity
  have hpow : (1 : ℚ) ≤ 2 ^ f.precision := one_le_pow₀ (by norm_num)
  by_cases hnum : num = 0
  · have hpos : (0 : ℚ) < (2 ^ (f.precision + 1) - 1) * 2 ^ (f.greatest - 1) :=
      mul_pos (by rw [pow_succ]; linarith) hunit
    refine iff_of_false ?_ ?_
    · rw [round, if_pos hnum]
      simp
    · rw [hnum, Nat.cast_zero, zero_div]
      exact not_le.2 hpos
  rw [round_of_ne_zero hnum]
  rcases lt_trichotomy (f.place num den) f.greatest with hlt | heq | hgt
  · -- Below the last place even a mantissa that is rounded up has room.
    refine iff_of_false ?_ (not_le.2 ?_)
    · have hnext : ¬f.greatest < f.place num den + 1 := by omega
      simp only [hnext, hlt.not_gt, ↓reduceIte]
      split_ifs <;> simp
    · calc (num : ℚ) / den < 2 ^ (f.place num den + f.precision) := div_lt_place hnum hden
        _ ≤ 2 ^ (f.greatest - 1 + f.precision) := zpow_le_zpow_right₀ (by norm_num) (by omega)
        _ = 2 ^ f.precision * 2 ^ (f.greatest - 1) := by
          rw [zpow_add₀ (by norm_num), zpow_natCast, mul_comm]
        _ ≤ (2 ^ (f.precision + 1) - 1) * 2 ^ (f.greatest - 1) := by
          gcongr
          rw [pow_succ]
          linarith
  · -- At the last place, the number is infinite if its mantissa is rounded up to the next power.
    have hnext : f.greatest < f.place num den + 1 := by omega
    simp only [hnext, heq.not_gt, ↓reduceIte]
    rw [← heq, ← mantissa_eq_iff hprecision hnum hden]
    split_ifs with h <;> simp [h]
  · refine iff_of_true ?_ ?_
    · have hnext : f.greatest < f.place num den + 1 := by omega
      simp only [hnext, hgt, ↓reduceIte, ite_self]
    · calc (2 ^ (f.precision + 1) - 1) * (2 : ℚ) ^ (f.greatest - 1)
          ≤ 2 ^ (f.precision + 1) * 2 ^ (f.greatest - 1) := by
            gcongr
            linarith
        _ = 2 ^ (f.greatest + f.precision) := by
          rw [← zpow_natCast, ← zpow_add₀ (by norm_num)]
          congr 1
          push_cast
          ring
        _ ≤ 2 ^ (f.place num den + f.precision - 1) :=
          zpow_le_zpow_right₀ (by norm_num) (by omega)
        _ ≤ num / den := place_le_div hnum hden (by omega)

/-- **Underflow.** A quotient is zero up to half of the least positive number. -/
theorem round_eq_zero_iff (hprecision : 0 < f.precision) (hrange : f.least ≤ f.greatest)
    (hden : den ≠ 0) :
    (∃ e, f.round num den = .finite 0 e) ↔ (num : ℚ) / den ≤ 2 ^ (f.least - 1) := by
  by_cases hnum : num = 0
  · refine iff_of_true ⟨f.least, if_pos hnum⟩ ?_
    rw [hnum, Nat.cast_zero, zero_div]
    positivity
  -- Rounding up to a power of two does not give zero.
  have hhalf : f.mantissa num den = 2 ^ f.precision → f.mantissa num den / 2 ≠ 0 := by
    obtain ⟨p, hp⟩ := Nat.exists_eq_succ_of_ne_zero hprecision.ne'
    intro h
    rw [h, hp, Nat.pow_succ, Nat.mul_div_cancel _ (by norm_num)]
    exact (Nat.two_pow_pos p).ne'
  have hzero : f.mantissa num den = 0 ↔ _ := mantissa_eq_zero_iff hden
  have hleast : f.least ≤ f.place num den := le_max_left _ _
  rw [round_of_ne_zero hnum]
  rcases hleast.lt_or_eq with hlt | heq
  · have hle := place_le_div hnum hden hlt
    refine iff_of_false ?_ (not_le.2 ?_)
    · rintro ⟨e, he⟩
      split_ifs at he with hm
      · exact hhalf hm (Number.finite.inj he).1
      · refine (hzero.1 (Number.finite.inj he).1).not_gt (lt_of_lt_of_le ?_ hle)
        exact zpow_lt_zpow_right₀ (by norm_num) (by omega)
    · exact lt_of_lt_of_le (zpow_lt_zpow_right₀ (by norm_num) (by omega)) hle
  · rw [heq, ← hzero, if_neg (show ¬f.greatest < f.place num den by omega)]
    constructor
    · rintro ⟨e, he⟩
      split_ifs at he with hm
      · exact absurd (Number.finite.inj he).1 (hhalf hm)
      · exact (Number.finite.inj he).1
    · intro hm
      refine ⟨f.place num den, ?_⟩
      rw [if_neg (by rw [hm]; exact (Nat.two_pow_pos _).ne), hm]

end Format

theorem double_round_eq_infinite_iff (hden : den ≠ 0) :
    double.round num den = .infinite ↔ (2 ^ 54 - 1) * 2 ^ 970 ≤ (num : ℚ) / den := by
  have h : double.round num den = .infinite ↔ _ :=
    Format.round_eq_infinite_iff (by decide) (by decide) hden
  rwa [show double.precision + 1 = 54 from rfl,
    show double.greatest - 1 = ((970 : ℕ) : Int) from rfl, zpow_natCast] at h

theorem double_round_eq_zero_iff (hden : den ≠ 0) :
    (∃ e, double.round num den = .finite 0 e) ↔ (num : ℚ) / den ≤ 1 / 2 ^ 1075 := by
  have h : (∃ e, double.round num den = .finite 0 e) ↔ _ :=
    Format.round_eq_zero_iff (by decide) (by decide) hden
  rwa [show double.least - 1 = -((1075 : ℕ) : Int) from rfl, zpow_neg, zpow_natCast,
    ← one_div] at h

end WeightedCsp.Binary

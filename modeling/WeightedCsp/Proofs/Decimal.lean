import WeightedCsp.Decimal
import WeightedCsp.Proofs.Formulation.Names
import WeightedCsp.Word

/-!
# Reading decimal numbers

A numeral stands for an integer, however large (`integer?`).  Reading goes from left to right and
stops where the range is left; it succeeds exactly on the numerals whose integer is in the range
(`readInt_eq_ok_iff`), and a machine integer is read as it was written (`readInt_repr`).
-/

namespace WeightedCsp.Decimal

/-! ### Digits -/

/-- One or more digits. -/
def isDigits (cs : List Char) : Bool := !cs.isEmpty && cs.all Char.isDigit

/-- A list of digits is not empty and has digits only. -/
theorem isDigits_iff {cs : List Char} : isDigits cs = true ↔ cs ≠ [] ∧ ∀ c ∈ cs, c.isDigit := by
  simp [isDigits]

theorem isDigit_iff {c : Char} : c.isDigit = true ↔ '0' ≤ c ∧ c ≤ '9' := by
  simp [Char.isDigit, Char.le_def]

/-- The value of a digit. -/
theorem digit?_of_isDigit {c : Char} (h : c.isDigit) : digit? c = some (c.toNat - '0'.toNat) :=
  if_pos (isDigit_iff.1 h)

/-- Further digits make a number no smaller. -/
theorem le_ofDigitChars (cs : List Char) (acc : Nat) : acc ≤ Nat.ofDigitChars 10 cs acc := by
  induction cs generalizing acc with
  | nil => exact Nat.le_refl acc
  | cons c cs ih =>
    rw [Nat.ofDigitChars_cons]
    exact Nat.le_trans (by omega) (ih _)

/-- Digits are read if their value is within the limit, and nothing else is. -/
theorem readDigits_eq_ok_iff {limit : Nat} {crossed : ReadError} {cs : List Char} {acc n : Nat}
    (hacc : acc ≤ limit) :
    readDigits limit crossed acc cs = .ok n ↔
      (∀ c ∈ cs, c.isDigit) ∧ Nat.ofDigitChars 10 cs acc = n ∧ n ≤ limit := by
  induction cs generalizing acc with
  | nil =>
    rw [readDigits, Nat.ofDigitChars_nil]
    constructor
    · rintro ⟨⟩
      exact ⟨by simp, rfl, hacc⟩
    · rintro ⟨-, rfl, -⟩
      rfl
  | cons c cs ih =>
    rw [readDigits, Nat.ofDigitChars_cons, Nat.mul_comm, List.forall_mem_cons]
    by_cases hc : c.isDigit
    · simp only [digit?_of_isDigit hc]
      split_ifs with hle
      · rw [ih hle, and_assoc, and_iff_right hc]
      · constructor
        · rintro ⟨⟩
        · rintro ⟨-, rfl, hn⟩
          -- The value only grows from here on.
          exact absurd (Nat.le_trans (le_ofDigitChars cs _) hn) hle
    · have hnone : digit? c = none := if_neg fun h => hc (isDigit_iff.2 h)
      simp [hnone, hc]

/-! ### Integers -/

/-- The integer that a numeral stands for: digits after an optional minus sign. -/
def integer? : List Char → Option Int
  | '-' :: cs => if isDigits cs then some (-(Nat.ofDigitChars 10 cs 0 : Int)) else none
  | cs => if isDigits cs then some (Nat.ofDigitChars 10 cs 0 : Int) else none

theorem integer?_minus (cs : List Char) :
    integer? ('-' :: cs) = if isDigits cs then some (-(Nat.ofDigitChars 10 cs 0 : Int)) else none :=
  rfl

theorem integer?_unsigned {c : Char} (hminus : c ≠ '-') (cs : List Char) :
    integer? (c :: cs) =
      if isDigits (c :: cs) then some (Nat.ofDigitChars 10 (c :: cs) 0 : Int) else none := by
  rw [integer?]
  rintro _ ⟨⟩
  exact hminus rfl

/-- Reading a number without a sign. -/
theorem readInt_of_unsigned {text : String} {c : Char} {cs : List Char}
    (h : text.toList = c :: cs) (hplus : c ≠ '+') (hminus : c ≠ '-') :
    readInt text =
      (readDigits 9223372036854775807 .tooLarge 0 (c :: cs)).map fun n => (n : Int) := by
  unfold readInt
  rw [h]
  split
  all_goals simp_all

/-- Reading a number with a minus. -/
theorem readInt_of_minus {text : String} {c : Char} {cs : List Char}
    (h : text.toList = '-' :: c :: cs) :
    readInt text = (readDigits 9223372036854775808 .tooSmall 0 (c :: cs)).map fun n =>
      -(n : Int) := by
  unfold readInt
  rw [h]
  rfl

theorem map_natCast_eq_ok {x : Except ReadError Nat} {f : Int → Int} {k : Int} :
    (do return ((← x : Nat) : Int) : Except ReadError Int).map f = .ok k ↔
      ∃ n : Nat, x = .ok n ∧ f n = k := by
  cases x with
  | ok n => simp [Except.map, bind, Except.bind, pure, Except.pure]
  | error e => simp [Except.map, bind, Except.bind]

/-- **Reading.** Unless it begins with a plus sign, a text is read exactly if it is a numeral of a
machine integer. -/
theorem readInt_eq_ok_iff {text : String} (hplus : text.toList.head? ≠ some '+') {k : Int} :
    readInt text = .ok k ↔ integer? text.toList = some k ∧ Word.InRange k := by
  unfold Word.InRange Word.least Word.greatest
  cases htext : text.toList with
  | nil =>
    unfold readInt
    simp [htext, integer?, isDigits]
  | cons c cs =>
    rw [htext, List.head?_cons, ne_eq, Option.some.injEq] at hplus
    by_cases hminus : c = '-'
    · subst hminus
      rw [integer?_minus]
      cases cs with
      | nil =>
        unfold readInt
        simp [htext, isDigits]
      | cons d ds =>
        -- The digits are read up to the magnitude of the least integer, and negated.
        rw [readInt_of_minus htext, map_natCast_eq_ok]
        constructor
        · rintro ⟨n, hn, rfl⟩
          obtain ⟨hdigits, rfl, hle⟩ := (readDigits_eq_ok_iff (Nat.zero_le _)).1 hn
          rw [if_pos (isDigits_iff.2 ⟨List.cons_ne_nil d ds, hdigits⟩)]
          exact ⟨rfl, by omega, by omega⟩
        · rintro ⟨hk, hleast, -⟩
          split_ifs at hk with hdigits
          cases hk
          refine ⟨_, (readDigits_eq_ok_iff (Nat.zero_le _)).2
            ⟨(isDigits_iff.1 hdigits).2, rfl, ?_⟩, rfl⟩
          omega
    · rw [integer?_unsigned hminus, readInt_of_unsigned htext hplus hminus, map_natCast_eq_ok]
      constructor
      · rintro ⟨n, hn, rfl⟩
        obtain ⟨hdigits, rfl, hle⟩ := (readDigits_eq_ok_iff (Nat.zero_le _)).1 hn
        rw [if_pos (isDigits_iff.2 ⟨List.cons_ne_nil c cs, hdigits⟩)]
        exact ⟨rfl, by omega, by omega⟩
      · rintro ⟨hk, -, hgreatest⟩
        split_ifs at hk with hdigits
        cases hk
        refine ⟨_, (readDigits_eq_ok_iff (Nat.zero_le _)).2
          ⟨(isDigits_iff.1 hdigits).2, rfl, ?_⟩, rfl⟩
        omega

/-- The digits of a number are digits. -/
theorem isDigits_toDigits (n : Nat) : isDigits (Nat.toDigits 10 n) = true :=
  isDigits_iff.2 ⟨Nat.toDigits_ne_nil,
    fun _ hc => Nat.isDigit_of_mem_toDigits (by decide) (by decide) hc⟩

/-- The written form of an integer is a numeral for it. -/
theorem integer?_repr (k : Int) : integer? k.repr.toList = some k := by
  rw [Names.toList_repr]
  split_ifs with hk
  · cases hdigits : Nat.toDigits 10 k.toNat with
    | nil => exact absurd hdigits Nat.toDigits_ne_nil
    | cons c cs =>
      -- The first character is a digit, so it is no sign.
      have hc := Names.isDigit_head_toDigits hdigits
      rw [integer?_unsigned (by rintro rfl; simp at hc), ← hdigits, if_pos (isDigits_toDigits _),
        Nat.ofDigitChars_ten_toDigits, Int.toNat_of_nonneg hk]
  · rw [integer?_minus, if_pos (isDigits_toDigits _), Nat.ofDigitChars_ten_toDigits]
    exact congrArg some (by omega)

/-- A machine integer is read as it was written. -/
theorem readInt_repr {k : Int} (h : Word.InRange k) : readInt k.repr = .ok k := by
  refine (readInt_eq_ok_iff fun hhead => ?_).2 ⟨integer?_repr k, h⟩
  obtain ⟨cs, hcs⟩ := List.head?_eq_some_iff.1 hhead
  have hnone := hcs ▸ integer?_repr k
  rw [integer?_unsigned (by decide)] at hnone
  simp [isDigits] at hnone

end WeightedCsp.Decimal

import Mathlib.Logic.Basic
import WeightedCsp.Proofs.Decimal
import WeightedCsp.Proofs.Rounding
import WeightedCsp.SolverLog

/-!
# Numbers in a log

How the numbers of a log are spelled, as grammars (`IsNatural`, `IsSeconds`), and that the readers
take exactly such a spelling from the front of a line (`Reads`): what is taken is spelled like that,
and a spelling before one of the characters that follow a number in a log is taken as a whole.

A number of seconds is rounded to 64 bits before it is checked.  `Seconds.Timely` says what this
comes to for the number as it is written (`exists_milliseconds_iff`).
-/

namespace WeightedCsp.SolverLog

/-- What follows a number in a log, if anything does. -/
def Ends (rest : List Char) : Prop := ∀ c ∈ rest.head?, c = '/' ∨ c = '(' ∨ c = ' '

/-- The reader takes what is spelled in one of the admitted ways. -/
structure Reads {α : Type} (read : List Char → Option (α × List Char))
    (spelled : List Char → α → Prop) : Prop where
  /-- Nothing else is taken. -/
  sound : ∀ {cs a rest}, read cs = some (a, rest) → ∃ t, cs = t ++ rest ∧ spelled t a
  /-- It is taken as a whole. -/
  complete : ∀ {t a rest}, spelled t a → Ends rest → read (t ++ rest) = some (a, rest)

/-! ### Digits -/

@[simp] theorem isDigit_eq (c : Char) : isDigit c = c.isDigit := by
  rw [Bool.eq_iff_iff, Decimal.isDigit_iff]
  simp [isDigit]

theorem digitsValue_eq (cs : List Char) : digitsValue cs = Nat.ofDigitChars 10 cs 0 := by
  unfold digitsValue Nat.ofDigitChars
  simp only [Nat.mul_comm]

/-- A run of characters ends where the next one is not of the kind. -/
theorem span_append {p : Char → Bool} {ds rest : List Char} (hds : ∀ c ∈ ds, p c = true)
    (hrest : ∀ c ∈ rest.head?, p c = false) :
    (ds ++ rest).takeWhile p = ds ∧ (ds ++ rest).dropWhile p = rest := by
  rw [List.takeWhile_append_of_pos hds, List.dropWhile_append_of_pos hds]
  cases rest with
  | nil => simp
  | cons c rest => simp [hrest c rfl]

theorem isDigit_of_mem_takeWhile (cs : List Char) : ∀ c ∈ cs.takeWhile isDigit, c.isDigit := by
  intro c hc
  rw [← isDigit_eq]
  exact List.all_eq_true.1 List.all_takeWhile c hc

theorem Ends.isDigit {rest : List Char} (h : Ends rest) : ∀ c ∈ rest.head?, isDigit c = false := by
  intro c hc
  rcases h c hc with rfl | rfl | rfl <;> decide

/-- A natural number of 64 bits in decimal. -/
def IsNatural (t : List Char) (n : Nat) : Prop :=
  Decimal.isDigits t ∧ Nat.ofDigitChars 10 t 0 = n ∧ n < 2 ^ 64

/-- A natural number is read as long as there are digits. -/
theorem reads_natural : Reads natural? IsNatural := by
  refine ⟨fun {cs n rest} h => ?_, fun {t n rest} ht hrest => ?_⟩
  · simp only [natural?] at h
    split_ifs at h with hempty hlt
    cases h
    refine ⟨cs.takeWhile isDigit, List.takeWhile_append_dropWhile.symm, ?_, ?_, hlt⟩
    · exact Decimal.isDigits_iff.2 ⟨by simpa using hempty, isDigit_of_mem_takeWhile cs⟩
    · exact (digitsValue_eq _).symm
  · obtain ⟨hdigits, rfl, hlt⟩ := ht
    obtain ⟨hne, hall⟩ := Decimal.isDigits_iff.1 hdigits
    obtain ⟨htake, hdrop⟩ := span_append (p := isDigit) (by simpa using hall) hrest.isDigit
    simp only [natural?, htake, hdrop, digitsValue_eq]
    rw [if_neg (by simpa using hne), if_pos (by simpa using hlt)]

/-! ### Seconds -/

/-- An optional sign. -/
inductive IsSign : List Char → Bool → Prop
  | none : IsSign [] false
  | plus : IsSign ['+'] false
  | minus : IsSign ['-'] true

/-- The digits before and after a point. -/
inductive IsMantissa : List Char → List Char → List Char → Prop
  /-- Without a point there are digits. -/
  | integer {whole : List Char} (hwhole : Decimal.isDigits whole) : IsMantissa whole whole []
  /-- With a point there are digits before it or after it. -/
  | point {whole fraction : List Char} (hwhole : ∀ c ∈ whole, c.isDigit)
      (hfraction : ∀ c ∈ fraction, c.isDigit) (hne : whole ≠ [] ∨ fraction ≠ []) :
      IsMantissa (whole ++ '.' :: fraction) whole fraction

/-- An optional power of ten. -/
inductive IsExponent : List Char → Int → Prop
  /-- No power. -/
  | none : IsExponent [] 0
  /-- A mark, an optional sign and digits. -/
  | power {mark : Char} {sign digits : List Char} {negative : Bool}
      (hmark : mark = 'e' ∨ mark = 'E') (hsign : IsSign sign negative)
      (hdigits : Decimal.isDigits digits) :
      IsExponent (mark :: (sign ++ digits))
        (if negative then -(Nat.ofDigitChars 10 digits 0 : Int) else Nat.ofDigitChars 10 digits 0)

/-- A number of seconds: a decimal number, or one of two words in letters of any case. -/
inductive IsSeconds : List Char → Seconds → Prop
  | nan {word : List Char} (hword : word.map Char.toLower = ['n', 'a', 'n']) : IsSeconds word .nan
  | infinite {word : List Char} (hword : word.map Char.toLower = ['i', 'n', 'f']) :
      IsSeconds word .infinite
  | decimal {sign mantissa whole fraction exponent : List Char} {negative : Bool} {power : Int}
      (hsign : IsSign sign negative) (hmantissa : IsMantissa mantissa whole fraction)
      (hexponent : IsExponent exponent power) :
      IsSeconds (sign ++ (mantissa ++ exponent))
        (.decimal negative (Nat.ofDigitChars 10 (whole ++ fraction) 0) (power - fraction.length))

/-- A sign is taken if there is one. -/
theorem exists_of_sign {cs rest : List Char} {negative : Bool} (h : sign cs = (negative, rest)) :
    ∃ t, cs = t ++ rest ∧ IsSign t negative := by
  unfold sign at h
  split at h
  · cases h
    exact ⟨_, rfl, .minus⟩
  · cases h
    exact ⟨_, rfl, .plus⟩
  · cases h
    exact ⟨_, rfl, .none⟩

theorem sign_append {t rest : List Char} {negative : Bool} (ht : IsSign t negative)
    (hrest : ∀ c ∈ rest.head?, c ≠ '+' ∧ c ≠ '-') : sign (t ++ rest) = (negative, rest) := by
  cases ht with
  | plus => rfl
  | minus => rfl
  | none =>
    cases rest with
    | nil => rfl
    | cons c rest =>
      obtain ⟨hplus, hminus⟩ := hrest c rfl
      rw [List.nil_append]
      unfold sign
      split
      · next heq =>
        cases heq
        exact absurd rfl hminus
      · next heq =>
        cases heq
        exact absurd rfl hplus
      · rfl

/-- What is read as a mantissa is one. -/
theorem exists_of_mantissa {cs whole fraction rest : List Char}
    (h : mantissa? cs = some (whole, fraction, rest)) :
    ∃ t, cs = t ++ rest ∧ IsMantissa t whole fraction := by
  have hsplit : cs = cs.takeWhile isDigit ++ cs.dropWhile isDigit :=
    List.takeWhile_append_dropWhile.symm
  simp only [mantissa?] at h
  split at h
  · next more hmore =>
    split_ifs at h with hempty
    cases h
    refine ⟨cs.takeWhile isDigit ++ '.' :: more.takeWhile isDigit, ?_, .point
      (isDigit_of_mem_takeWhile cs) (isDigit_of_mem_takeWhile more) ?_⟩
    · rw [List.append_assoc, List.cons_append, List.takeWhile_append_dropWhile, ← hmore]
      exact hsplit
    · simpa [or_iff_not_imp_left] using hempty
  · split_ifs at h with hempty
    cases h
    exact ⟨cs.takeWhile isDigit, hsplit, .integer (Decimal.isDigits_iff.2
      ⟨by simpa using hempty, isDigit_of_mem_takeWhile cs⟩)⟩

/-- A mantissa is read up to what cannot belong to it. -/
theorem mantissa_append {t whole fraction rest : List Char} (ht : IsMantissa t whole fraction)
    (hrest : ∀ c ∈ rest.head?, isDigit c = false ∧ c ≠ '.') :
    mantissa? (t ++ rest) = some (whole, fraction, rest) := by
  have hdigit : ∀ c ∈ rest.head?, isDigit c = false := fun c hc => (hrest c hc).1
  cases ht with
  | integer hwhole =>
    obtain ⟨hne, hall⟩ := Decimal.isDigits_iff.1 hwhole
    obtain ⟨htake, hdrop⟩ := span_append (p := isDigit) (by simpa using hall) hdigit
    simp only [mantissa?, htake, hdrop]
    split
    · next more =>
      exact absurd rfl (hrest '.' rfl).2
    · rw [if_neg (by simpa using hne)]
  | point hwhole hfraction hne =>
    have hpoint : ∀ c ∈ ('.' :: (fraction ++ rest)).head?, isDigit c = false := by simp
    obtain ⟨htake, hdrop⟩ := span_append (p := isDigit) (by simpa using hwhole) hpoint
    obtain ⟨htake', hdrop'⟩ := span_append (p := isDigit) (by simpa using hfraction) hdigit
    rw [List.append_assoc, List.cons_append]
    simp only [mantissa?, htake, hdrop, htake', hdrop']
    rw [if_neg (by simpa [or_iff_not_imp_left] using hne)]

/-- What is read as an exponent is one. -/
theorem exists_of_exponent {cs rest : List Char} {power : Int}
    (h : exponent? cs = some (power, rest)) : ∃ t, cs = t ++ rest ∧ IsExponent t power := by
  unfold exponent? at h
  split at h
  · next c more =>
    by_cases hmark : (c = 'e' || c = 'E') = true
    · generalize hsign : sign more = p at h
      obtain ⟨negative, digits⟩ := p
      obtain ⟨t, rfl, ht⟩ := exists_of_sign hsign
      by_cases hempty : (digits.takeWhile isDigit).isEmpty = true
      · simp [hmark, hempty] at h
      · simp only [hmark, hempty, ↓reduceIte, Bool.false_eq_true, digitsValue_eq] at h
        cases h
        refine ⟨c :: (t ++ digits.takeWhile isDigit), ?_, .power (by simpa using hmark) ht
          (Decimal.isDigits_iff.2 ⟨by simpa using hempty, isDigit_of_mem_takeWhile digits⟩)⟩
        rw [List.cons_append, List.append_assoc, List.takeWhile_append_dropWhile]
    · simp only [hmark, ↓reduceIte, Bool.false_eq_true] at h
      cases h
      exact ⟨[], rfl, .none⟩
  · cases h
    exact ⟨[], rfl, .none⟩

/-- An exponent is read up to what cannot belong to it. -/
theorem exponent_append {t rest : List Char} {power : Int} (ht : IsExponent t power)
    (hrest : Ends rest) : exponent? (t ++ rest) = some (power, rest) := by
  cases ht with
  | none =>
    cases rest with
    | nil => rfl
    | cons c rest =>
      have hmark : (c = 'e' || c = 'E') = false := by
        rcases hrest c rfl with rfl | rfl | rfl <;> decide
      simp [exponent?, hmark]
  | @power mark sign digits negative hmark hsign hdigits =>
    obtain ⟨hne, hall⟩ := Decimal.isDigits_iff.1 hdigits
    obtain ⟨htake, hdrop⟩ := span_append (p := isDigit) (by simpa using hall) hrest.isDigit
    -- A digit is no sign, so the digits are not mistaken for one.
    have hhead : ∀ c ∈ (digits ++ rest).head?, c ≠ '+' ∧ c ≠ '-' := by
      cases digits with
      | nil => exact absurd rfl hne
      | cons d ds =>
        rintro c ⟨⟩
        have hd := hall d List.mem_cons_self
        constructor <;> rintro rfl <;> simp at hd
    have hmark' : (mark = 'e' || mark = 'E') = true := by simpa using hmark
    rw [List.cons_append, List.append_assoc]
    simp only [exponent?, hmark', ↓reduceIte, sign_append hsign hhead, htake, hdrop, digitsValue_eq]
    rw [if_neg (by simpa using hne)]

/-- A mantissa begins with a digit or the point. -/
theorem IsMantissa.head {t whole fraction : List Char} (h : IsMantissa t whole fraction) :
    ∃ c more, t = c :: more ∧ (isDigit c || c = '.') = true := by
  cases h with
  | integer hwhole =>
    obtain ⟨hne, hall⟩ := Decimal.isDigits_iff.1 hwhole
    cases t with
    | nil => exact absurd rfl hne
    | cons c more => exact ⟨c, more, rfl, by simp [hall c List.mem_cons_self]⟩
  | point hwhole hfraction hne =>
    cases whole with
    | nil => exact ⟨'.', fraction, rfl, by simp⟩
    | cons c more => exact ⟨c, _, rfl, by simp [hwhole c List.mem_cons_self]⟩

/-- What follows a mantissa does not continue it. -/
theorem IsExponent.head {t rest : List Char} {power : Int} (ht : IsExponent t power)
    (hrest : Ends rest) : ∀ c ∈ (t ++ rest).head?, isDigit c = false ∧ c ≠ '.' := by
  cases ht with
  | none =>
    intro c hc
    rcases hrest c hc with rfl | rfl | rfl <;> decide
  | power hmark hsign hdigits =>
    rintro c ⟨⟩
    rcases hmark with rfl | rfl <;> decide

/-- What is read as seconds is written so. -/
theorem exists_of_decimal {cs rest : List Char} {v : Seconds} (h : decimal? cs = some (v, rest)) :
    ∃ t, cs = t ++ rest ∧ IsSeconds t v := by
  obtain ⟨sign, hcs, hsign⟩ := exists_of_sign (rfl : sign cs = ((sign cs).1, (sign cs).2))
  obtain ⟨⟨whole, fraction, after⟩, hmantissa, h⟩ := Option.bind_eq_some_iff.1 h
  obtain ⟨⟨power, after'⟩, hexponent, h⟩ := Option.bind_eq_some_iff.1 h
  cases h
  obtain ⟨mantissa, hafter, hdigits⟩ := exists_of_mantissa hmantissa
  obtain ⟨exponent, rfl, hpower⟩ := exists_of_exponent hexponent
  refine ⟨sign ++ (mantissa ++ exponent), ?_, ?_⟩
  · rw [List.append_assoc, List.append_assoc, ← hafter]
    exact hcs
  · rw [digitsValue_eq]
    exact .decimal hsign hdigits hpower

/-- Decimal seconds are read up to what cannot belong to them. -/
theorem decimal_append {sign mantissa whole fraction exponent rest : List Char} {negative : Bool}
    {power : Int} (hsign : IsSign sign negative) (hmantissa : IsMantissa mantissa whole fraction)
    (hexponent : IsExponent exponent power) (hrest : Ends rest) :
    decimal? (sign ++ (mantissa ++ exponent) ++ rest) = some (.decimal negative
      (Nat.ofDigitChars 10 (whole ++ fraction) 0) (power - fraction.length), rest) := by
  obtain ⟨c, more, rfl, hc⟩ := hmantissa.head
  -- A mantissa begins with no sign, so only one sign is taken.
  have hhead : ∀ d ∈ (c :: more ++ (exponent ++ rest)).head?, d ≠ '+' ∧ d ≠ '-' := by
    rintro d ⟨⟩
    constructor <;> rintro rfl <;> simp at hc
  rw [List.append_assoc, List.append_assoc]
  simp only [decimal?, sign_append hsign hhead, mantissa_append hmantissa (hexponent.head hrest),
    exponent_append hexponent hrest, digitsValue_eq, Option.bind_eq_bind, Option.bind_some]
  rfl

theorem lower_eq (c : Char) : lower c = c.toLower := by
  unfold lower Char.toLower
  by_cases h : 'A' ≤ c ∧ c ≤ 'Z'
  · have hle : c.toNat ≤ 90 := h.2
    have hvalid : (c.toNat + 32).isValidChar := by
      unfold Nat.isValidChar
      omega
    have hupper : c.val ≥ 'A'.val ∧ c.val ≤ 'Z'.val := h
    rw [if_pos (by simpa using h), dif_pos hupper, ← Char.toNat_inj, Char.ofNat, dif_pos hvalid]
    show c.toNat + 32 = (c.val + 32).toNat
    rw [UInt32.toNat_add]
    show c.toNat + 32 = (c.toNat + 32) % 2 ^ 32
    omega
  · have hupper : ¬(c.val ≥ 'A'.val ∧ c.val ≤ 'Z'.val) := h
    rw [if_neg (by simpa using h), dif_neg hupper]

theorem head_of_map_toLower {t word : List Char} (ht : t.map Char.toLower = word)
    (hword : ∀ c ∈ word.head?, 65 ≤ c.toNat) : ∀ c ∈ t.head?, 65 ≤ c.toNat := by
  intro c hc
  have hlower : 65 ≤ c.toLower.toNat := by
    refine hword c.toLower ?_
    rw [← ht, List.head?_map, Option.mem_def.1 hc]
    rfl
  unfold Char.toLower at hlower
  split_ifs at hlower with hupper
  · exact hupper.1
  · exact hlower

/-- A word of three letters is no decimal number. -/
theorem seconds_word {t rest : List Char} (hlength : t.length = 3)
    (hhead : ∀ c ∈ t.head?, 65 ≤ c.toNat) :
    seconds? (t ++ rest) = match t.map Char.toLower with
      | ['n', 'a', 'n'] => some (.nan, rest)
      | ['i', 'n', 'f'] => some (.infinite, rest)
      | _ => none := by
  cases t with
  | nil => cases hlength
  | cons c more =>
    have hc : 65 ≤ c.toNat := hhead c rfl
    have hsign : sign ([] ++ (c :: more ++ rest)) = (false, c :: more ++ rest) := by
      refine sign_append .none ?_
      rintro d ⟨⟩
      constructor <;> rintro rfl <;> simp at hc
    have hdigit : c.isDigit = false := by
      rw [Bool.eq_false_iff]
      intro hdigit
      have hle : c.toNat ≤ 57 := (Decimal.isDigit_iff.1 hdigit).2
      omega
    have hpoint : c ≠ '.' := by
      rintro rfl
      simp at hc
    rw [List.nil_append] at hsign
    unfold seconds?
    rw [hsign, List.take_left' hlength, List.drop_left' hlength, funext lower_eq]
    exact if_neg (by simp [hdigit, hpoint])

/-- **Seconds.** Reading a number of seconds takes just what is spelled like one. -/
theorem reads_seconds : Reads seconds? IsSeconds := by
  refine ⟨fun {cs v rest} h => ?_, fun {t v rest} ht hrest => ?_⟩
  -- The reader looks past a sign to tell a number from a word, but a word has none.
  · unfold seconds? at h
    split at h
    · next c more hsign =>
      by_cases hc : (isDigit c || c = '.') = true
      · rw [if_pos hc] at h
        exact exists_of_decimal h
      · rw [if_neg hc] at h
        split at h
        · next hword =>
          cases h
          refine ⟨cs.take 3, (List.take_append_drop 3 cs).symm, .nan ?_⟩
          simpa only [← funext lower_eq] using hword
        · next hword =>
          cases h
          refine ⟨cs.take 3, (List.take_append_drop 3 cs).symm, .infinite ?_⟩
          simpa only [← funext lower_eq] using hword
        · cases h
    · cases h
  · cases ht with
    | @decimal sign mantissa whole fraction exponent negative power hsign hmantissa hexponent =>
      obtain ⟨c, more, rfl, hc⟩ := hmantissa.head
      have hhead : ∀ d ∈ (c :: (more ++ (exponent ++ rest))).head?, d ≠ '+' ∧ d ≠ '-' := by
        rintro d ⟨⟩
        constructor <;> rintro rfl <;> simp at hc
      rw [← decimal_append hsign hmantissa hexponent hrest, List.append_assoc, List.append_assoc]
      simp only [seconds?, List.cons_append, sign_append hsign hhead, hc, ↓reduceIte]
    | nan hword =>
      have hlength : t.length = 3 := by simpa using congrArg List.length hword
      rw [seconds_word hlength (head_of_map_toLower hword (by simp)), hword]
      rfl
    | infinite hword =>
      have hlength : t.length = 3 := by simpa using congrArg List.length hword
      rw [seconds_word hlength (head_of_map_toLower hword (by simp)), hword]
      rfl

/-! ### Times -/

/-- A time that counts: once it is rounded to 64 bits, the number is finite and not negative.  From
`(2 ^ 54 - 1) · 2 ^ 970` on, numbers are rounded to infinity, and up to `2 ^ (-1075)` to zero. -/
def Seconds.Timely : Seconds → Prop
  | .nan => False
  | .infinite => False
  | .decimal negative digits place =>
    (digits : ℚ) * 10 ^ place < (2 ^ 54 - 1) * 2 ^ 970 ∧
      (negative = true → (digits : ℚ) * 10 ^ place ≤ 1 / 2 ^ 1075)

theorem tenfold_spec (digits : Nat) (place : Int) :
    (Decimal.tenfold digits 1 place).2 ≠ 0 ∧
      ((Decimal.tenfold digits 1 place).1 : ℚ) / (Decimal.tenfold digits 1 place).2 =
        digits * 10 ^ place := by
  unfold Decimal.tenfold
  split_ifs with h
  · obtain ⟨n, rfl⟩ := Int.eq_ofNat_of_zero_le h
    simp
  · obtain ⟨n, hn⟩ := Int.eq_ofNat_of_zero_le (show 0 ≤ -place by omega)
    obtain rfl : place = -n := by omega
    simp [div_eq_mul_inv]

/-- The number of digits tells the magnitude. -/
theorem magnitude_of_length {digits : Nat} (h : digits ≠ 0) (place : Int) :
    (10 : ℚ) ^ ((digits.repr.length : Int) + place - 1) ≤ digits * 10 ^ place ∧
      (digits : ℚ) * 10 ^ place < 10 ^ ((digits.repr.length : Int) + place) := by
  have hlength : 0 < digits.repr.length := Nat.length_repr_pos
  have hlt : digits < 10 ^ digits.repr.length := (Nat.length_repr_le_iff hlength).1 (Nat.le_refl _)
  -- A number of `n` digits is at least the power of ten with `n - 1` zeros.
  have hle : 10 ^ (digits.repr.length - 1) ≤ digits := by
    by_cases hone : digits.repr.length = 1
    · rw [hone]
      omega
    · by_contra hlt
      have := (Nat.length_repr_le_iff (by omega)).2 (Nat.not_le.1 hlt)
      omega
  have hpos : (0 : ℚ) < 10 ^ place := by positivity
  constructor
  · calc (10 : ℚ) ^ ((digits.repr.length : Int) + place - 1)
        = 10 ^ (digits.repr.length - 1) * 10 ^ place := by
          rw [← zpow_natCast, ← zpow_add₀ (by norm_num)]
          congr 1
          omega
      _ ≤ digits * 10 ^ place := by
        gcongr
        exact_mod_cast hle
  · rw [zpow_add₀ (by norm_num), zpow_natCast]
    gcongr
    exact_mod_cast hlt

/-- A decimal digit has more than three bits. -/
theorem two_pow_le_ten_pow (n : Nat) : (2 : ℚ) ^ (3 * n) ≤ 10 ^ n := by
  rw [pow_mul]
  exact pow_le_pow_left₀ (by norm_num) (by norm_num) n

/-- Half a step above the greatest double, numbers become infinite. -/
theorem toDouble_eq_infinite_iff (digits : Nat) (place : Int) :
    toDouble digits place = .infinite ↔ (2 ^ 54 - 1) * 2 ^ 970 ≤ (digits : ℚ) * 10 ^ place := by
  have hone : (1 : ℚ) < (2 ^ 54 - 1) * 2 ^ 970 :=
    one_lt_mul_of_lt_of_le (by norm_num) (one_le_pow₀ (by norm_num))
  unfold toDouble
  by_cases hzero : digits = 0
  · rw [if_pos hzero, hzero, Nat.cast_zero, zero_mul]
    exact iff_of_false (by simp) (not_le.2 (lt_trans one_pos hone))
  obtain ⟨hlow, hhigh⟩ := magnitude_of_length hzero place
  rw [if_neg hzero]
  simp only
  split_ifs with hlarge hsmall
  -- Far beyond the range nothing is computed, and the number of digits decides.
  · refine iff_of_true rfl (le_trans ?_ hlow)
    calc ((2 : ℚ) ^ 54 - 1) * 2 ^ 970 ≤ 2 ^ 54 * 2 ^ 970 := by
          gcongr
          norm_num
      _ = 2 ^ 1024 := (pow_add 2 54 970).symm
      _ ≤ 2 ^ (3 * 400) := pow_le_pow_right₀ (by norm_num) (by norm_num)
      _ ≤ 10 ^ 400 := two_pow_le_ten_pow 400
      _ ≤ 10 ^ ((digits.repr.length : Int) + place - 1) := by
        rw [← zpow_natCast]
        exact zpow_le_zpow_right₀ (by norm_num) (by omega)
  · refine iff_of_false (by simp) (not_le.2 (lt_trans hhigh (lt_of_le_of_lt ?_ hone)))
    exact zpow_le_one_of_nonpos₀ (by norm_num) (by omega)
  · obtain ⟨hden, hvalue⟩ := tenfold_spec digits place
    rw [← hvalue]
    exact Binary.double_round_eq_infinite_iff hden

/-- Up to half the least double, numbers become zero. -/
theorem toDouble_eq_zero_iff (digits : Nat) (place : Int) :
    (∃ e, toDouble digits place = .finite 0 e) ↔ (digits : ℚ) * 10 ^ place ≤ 1 / 2 ^ 1075 := by
  unfold toDouble
  by_cases hzero : digits = 0
  · rw [if_pos hzero, hzero, Nat.cast_zero, zero_mul]
    exact iff_of_true ⟨_, rfl⟩ (by positivity)
  obtain ⟨hlow, hhigh⟩ := magnitude_of_length hzero place
  rw [if_neg hzero]
  simp only
  split_ifs with hlarge hsmall
  · -- A magnitude that is large is at least one, far above the threshold.
    refine iff_of_false (by simp) (not_le.2 (lt_of_lt_of_le ?_ hlow))
    calc (1 : ℚ) / 2 ^ 1075 < 1 := by
          rw [div_lt_one (by positivity)]
          exact one_lt_pow₀ (by norm_num) (by norm_num)
      _ ≤ 10 ^ ((digits.repr.length : Int) + place - 1) :=
        one_le_zpow₀ (by norm_num) (by omega)
  · -- Below 10^(-400) there is nothing left to round.
    refine iff_of_true ⟨_, rfl⟩ (le_trans hhigh.le ?_)
    calc (10 : ℚ) ^ ((digits.repr.length : Int) + place) ≤ 10 ^ (-400 : Int) :=
          zpow_le_zpow_right₀ (by norm_num) (by omega)
      _ = 1 / 10 ^ 400 := by
        rw [zpow_neg, one_div]
        rfl
      _ ≤ 1 / 2 ^ (3 * 400) := one_div_le_one_div_of_le (by positivity) (two_pow_le_ten_pow 400)
      _ ≤ 1 / 2 ^ 1075 := one_div_le_one_div_of_le (by positivity)
        (pow_le_pow_right₀ (by norm_num) (by norm_num))
  · obtain ⟨hden, hvalue⟩ := tenfold_spec digits place
    rw [← hvalue]
    exact Binary.double_round_eq_zero_iff hden

/-- **Times.** A number of seconds is turned into milliseconds exactly if it is a time that
counts. -/
theorem exists_milliseconds_iff (s : Seconds) : (∃ ms, milliseconds s = .ok ms) ↔ s.Timely := by
  cases s with
  | nan => exact iff_of_false (by rintro ⟨ms, ⟨⟩⟩) id
  | infinite => exact iff_of_false (by rintro ⟨ms, ⟨⟩⟩) id
  | decimal negative digits place =>
    have htimely : (Seconds.decimal negative digits place).Timely ↔
        toDouble digits place ≠ .infinite ∧
          (negative = true → ∃ e, toDouble digits place = .finite 0 e) := by
      rw [ne_eq, toDouble_eq_infinite_iff, not_le, toDouble_eq_zero_iff]
      rfl
    rw [htimely]
    unfold milliseconds
    cases hdouble : toDouble digits place with
    | infinite => simp [hdouble]
    | finite m e =>
      -- A negative time counts only if it was rounded to zero.
      by_cases hnegative : negative = true ∧ m ≠ 0
      · simp [hdouble, hnegative]
      · have hzero : negative = true → m = 0 := by simpa using hnegative
        simpa [hdouble, hnegative] using hzero

theorem milliseconds_error {s : Seconds} {e : LogError} (h : milliseconds s = .error e) :
    ∃ text, e = .invalidNumber text := by
  unfold milliseconds at h
  split at h
  · exact ⟨_, (Except.error.inj h).symm⟩
  · exact ⟨_, (Except.error.inj h).symm⟩
  · split at h
    · exact ⟨_, (Except.error.inj h).symm⟩
    · split_ifs at h
      exact ⟨_, (Except.error.inj h).symm⟩

end WeightedCsp.SolverLog

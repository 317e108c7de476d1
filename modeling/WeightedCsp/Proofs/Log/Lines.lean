import WeightedCsp.Proofs.Log.Seconds

/-!
# The lines of a log

A text is split into lines before it is decoded.  As no byte of another character is a line feed,
the lines of the bytes are the lines of the text (`rawLines_utf8`), and each of them decodes to its
text (`lineText_utf8`).

For each kind of line there is a grammar that says how such a line is spelled, and the test for the
kind succeeds exactly on the lines of the grammar: two numbers in a frame (`framed_iff`), a heading
(`heading?_eq_some_iff`), a name with a label (`entryLine?_eq_some_iff`).
-/

namespace WeightedCsp.SolverLog

/-! ### From bytes to lines -/

/-- The bytes of a text. -/
def utf8 (cs : List Char) : List UInt8 := cs.flatMap String.utf8EncodeChar

theorem toList_toUTF8 (text : String) : text.toUTF8.data.toList = utf8 text.toList := by
  conv => lhs; rw [← String.ofList_toList (s := text)]
  rw [String.toUTF8_eq_toByteArray, String.toByteArray_ofList]
  exact List.toList_data_toByteArray

/-- The bytes of a line are its text. -/
theorem lineText_utf8 (cs : List Char) : lineText (utf8 cs) = .ok (Text.trimEnd cs) := by
  have hbytes : ByteArray.mk (utf8 cs).toArray = (String.ofList cs).toByteArray := by
    rw [String.toByteArray_ofList, ByteArray.ext_iff]
    exact List.data_toByteArray.symm
  have hvalid := (String.ofList cs).isValidUTF8
  unfold lineText
  rw [hbytes, String.fromUTF8?, dif_pos hvalid]
  show Except.ok (Text.trimEnd (String.ofList cs).toList) = _
  rw [String.toList_ofList]

/-- A byte that ends a line is part of no other character. -/
theorem not_mem_utf8EncodeChar {c : Char} (hc : c ≠ '\n') :
    (10 : UInt8) ∉ String.utf8EncodeChar c := by
  -- A single byte is the character itself, and all bytes of longer encodings are above 127.
  have hval : c.val.toNat ≠ 10 := fun heq => hc (Char.toNat_inj.1 heq)
  simp only [String.utf8EncodeChar]
  split_ifs
  all_goals
    simp only [List.mem_cons, List.not_mem_nil, or_false, ← UInt8.toNat_inj, UInt8.toNat_ofNat',
      UInt8.reduceToNat]
    omega

theorem utf8_cons (c : Char) (cs : List Char) :
    utf8 (c :: cs) = String.utf8EncodeChar c ++ utf8 cs := List.flatMap_cons

/-- Bytes that do not end a line are collected. -/
theorem rawLines_append {bs : List UInt8} (h : (10 : UInt8) ∉ bs) (line rest : List UInt8) :
    rawLines line (bs ++ rest) = rawLines (bs.reverse ++ line) rest := by
  induction bs generalizing line with
  | nil => rfl
  | cons b bs ih =>
    rw [List.mem_cons, not_or] at h
    rw [List.cons_append, rawLines, if_neg (Ne.symm h.1), ih h.2, List.reverse_cons,
      List.append_assoc]
    rfl

/-- Pieces without an empty one at the end. -/
def dropEmptyEnd (pieces : List (List Char)) : List (List Char) :=
  if pieces.getLast? = some [] then pieces.dropLast else pieces

/-- The lines of a text: what stands between line feeds, except for an empty end. -/
def textLines (cs : List Char) : List (List Char) := dropEmptyEnd (cs.splitOn '\n')

theorem dropEmptyEnd_cons (piece : List Char) {pieces : List (List Char)} (h : pieces ≠ []) :
    dropEmptyEnd (piece :: pieces) = piece :: dropEmptyEnd pieces := by
  unfold dropEmptyEnd
  rw [List.getLast?_cons_of_ne_nil h, List.dropLast_cons_of_ne_nil h]
  split_ifs <;> rfl

/-- Bytes are cut into lines where characters are. -/
theorem rawLines_prepend (cs acc : List Char) :
    rawLines (utf8 acc.reverse).reverse (utf8 cs) =
      (dropEmptyEnd (List.splitOnPPrepend (· == '\n') cs acc)).map utf8 := by
  -- Both splitters collect the line in reverse; the bytes of `acc` are what is collected so far.
  induction cs generalizing acc with
  | nil =>
    rw [List.splitOnPPrepend_nil]
    cases hacc : acc.reverse with
    | nil => rfl
    | cons c line =>
      have hne : (utf8 (c :: line)).reverse ≠ [] := by
        simp [utf8, String.utf8EncodeChar_ne_nil]
      rw [show utf8 [] = [] from rfl, rawLines, List.reverse_reverse]
      · rfl
      · exact hne
  | cons c cs ih =>
    rw [utf8_cons]
    by_cases hc : c = '\n'
    · subst hc
      rw [List.splitOnPPrepend_cons_pos (by simp), dropEmptyEnd_cons _ (List.splitOnP_ne_nil _ _),
        List.map_cons]
      have hrest := ih []
      have hfeed : String.utf8EncodeChar '\n' = [10] := by decide
      rw [hfeed, List.cons_append, rawLines, if_pos rfl, List.reverse_reverse]
      exact congrArg _ hrest
    · rw [rawLines_append (not_mem_utf8EncodeChar hc),
        List.splitOnPPrepend_cons_neg (by simpa using hc), ← ih]
      simp [utf8]

/-- **Lines.** Splitting bytes into lines is splitting the text. -/
theorem rawLines_utf8 (cs : List Char) : rawLines [] (utf8 cs) = (textLines cs).map utf8 :=
  rawLines_prepend cs []

/-! ### Lines with numbers -/

section Numbers

variable {α : Type} {read : List Char → Option (α × List Char)} {spelled : List Char → α → Prop}

theorem after?_eq_some_iff {tag : String} {cs rest : List Char} :
    after? tag cs = some rest ↔ cs = tag.toList ++ rest := by
  unfold after?
  constructor
  · intro h
    split_ifs at h with hprefix
    obtain ⟨more, rfl⟩ := List.isPrefixOf_iff_prefix.1 hprefix
    rw [← String.length_toList, List.drop_left] at h
    cases h
    rfl
  · rintro rfl
    rw [if_pos (List.isPrefixOf_iff_prefix.2 ⟨rest, rfl⟩), ← String.length_toList, List.drop_left]

/-- Two numbers with a slash between them. -/
def Paired (spelled : List Char → α → Prop) (t : List Char) (p : α × α) : Prop :=
  ∃ a b, spelled a p.1 ∧ spelled b p.2 ∧ t = a ++ '/' :: b

/-- Pairs are read one after the other. -/
theorem Reads.pair (h : Reads read spelled) : Reads (pair? read) (Paired spelled) := by
  refine ⟨fun {cs p rest} hp => ?_, fun {t p rest} ht hrest => ?_⟩
  · obtain ⟨⟨x, rest₁⟩, hx, hp⟩ := Option.bind_eq_some_iff.1 hp
    obtain ⟨rest₂, hslash, hp⟩ := Option.bind_eq_some_iff.1 hp
    obtain ⟨⟨y, rest₃⟩, hy, hp⟩ := Option.bind_eq_some_iff.1 hp
    cases hp
    obtain ⟨a, rfl, ha⟩ := h.sound hx
    obtain rfl := after?_eq_some_iff.1 hslash
    obtain ⟨b, rfl, hb⟩ := h.sound hy
    exact ⟨a ++ '/' :: b, by simp, a, b, ha, hb, rfl⟩
  · obtain ⟨a, b, ha, hb, rfl⟩ := ht
    have hslash : after? "/" ('/' :: (b ++ rest)) = some (b ++ rest) := after?_eq_some_iff.2 rfl
    rw [List.append_assoc, List.cons_append]
    simp only [pair?, h.complete ha (show Ends ('/' :: (b ++ rest)) by simp [Ends]), hslash,
      h.complete hb hrest, Option.bind_eq_bind, Option.bind_some]
    rfl

/-- A line with something between two fixed texts. -/
def Framed (before after : String) (spelled : List Char → α → Prop) (line : List Char) (a : α) :
    Prop := ∃ t, spelled t a ∧ line = before.toList ++ (t ++ after.toList)

/-- A line with something between two texts is read as that. -/
theorem framed_iff (h : Reads read spelled) {before after : String} (hafter : Ends after.toList)
    {cs : List Char} {a : α} :
    (do
      let rest ← after? before cs
      let (a, rest) ← read rest
      let rest ← after? after rest
      whole? (some (a, rest))) = some a ↔ Framed before after spelled cs a := by
  constructor
  · intro ha
    obtain ⟨rest₁, hbefore, ha₁⟩ := Option.bind_eq_some_iff.1 ha
    obtain ⟨⟨a', rest₂⟩, hread, ha₂⟩ := Option.bind_eq_some_iff.1 ha₁
    obtain ⟨rest₃, hlast, hwhole⟩ := Option.bind_eq_some_iff.1 ha₂
    obtain ⟨t, hrest₁, ht⟩ := h.sound hread
    rw [after?_eq_some_iff] at hbefore hlast
    -- Nothing may be left over.
    cases rest₃ with
    | nil =>
      cases hwhole
      refine ⟨t, ht, ?_⟩
      rw [hbefore, hrest₁, hlast, List.append_nil]
    | cons c rest => cases hwhole
  · rintro ⟨t, ht, rfl⟩
    have hbefore : after? before (before.toList ++ (t ++ after.toList)) =
        some (t ++ after.toList) := after?_eq_some_iff.2 rfl
    have hlast : after? after after.toList = some [] :=
      after?_eq_some_iff.2 (List.append_nil _).symm
    simp only [hbefore, h.complete ht hafter, hlast, Option.bind_eq_bind, Option.bind_some]
    rfl

end Numbers

/-- The line with the penalties. -/
def IsPenalty : List Char → Nat × Nat → Prop :=
  Framed "# penalty = " " (hard/soft)" (Paired IsNatural)

/-- The line with the times. -/
def IsTime : List Char → Seconds × Seconds → Prop := Framed "# cpu time = " "(s)" (Paired IsSeconds)

/-- The line with the iteration counts. -/
def IsIteration : List Char → Nat × Nat → Prop := Framed "# iteration = " "" (Paired IsNatural)

/-- A line is read as one of penalties if it is one. -/
theorem penaltyLine?_eq_some_iff (cs : List Char) (p : Nat × Nat) :
    penaltyLine? cs = some p ↔ IsPenalty cs p := framed_iff reads_natural.pair (by simp [Ends])

/-- A line is read as one of times if it is one. -/
theorem timeLine?_eq_some_iff (cs : List Char) (p : Seconds × Seconds) :
    timeLine? cs = some p ↔ IsTime cs p := framed_iff reads_seconds.pair (by simp [Ends])

/-- A line is read as one of iterations if it is one. -/
theorem iterationLine?_eq_some_iff (cs : List Char) (p : Nat × Nat) :
    iterationLine? cs = some p ↔ IsIteration cs p := by
  -- The counts end the line: a frame with nothing after them.
  refine Iff.trans (Eq.congr_left ?_) (framed_iff reads_natural.pair (by simp [Ends]))
  have hempty : ∀ rest, after? "" rest = some rest := fun rest => after?_eq_some_iff.2 rfl
  simp only [iterationLine?, hempty, Option.bind_eq_bind, Option.bind_some]
  refine congrArg _ (funext fun rest => ?_)
  cases pair? natural? rest with
  | none => rfl
  | some r => rfl

/-- A line that is a heading. -/
def IsHeading (text : String) (line : List Char) (_ : Unit) : Prop := line = text.toList

theorem heading?_eq_some_iff (text : String) (cs : List Char) (u : Unit) :
    heading? text cs = some u ↔ IsHeading text cs u := by
  unfold heading? IsHeading
  split_ifs with h <;> simp [h]

/-! ### Entries -/

/-- A label: word characters after an optional minus sign. -/
def IsLabel (t : List Char) : Prop :=
  ∃ word, word ≠ [] ∧ (∀ c ∈ word, Identifier.isWordChar c) ∧ (t = word ∨ t = '-' :: word)

/-- A line with a name and a label. -/
def IsEntry (line : List Char) (e : String × String) : Prop :=
  Identifier.isValid e.1 ∧ IsLabel e.2.toList ∧ line = e.1.toList ++ (": ".toList ++ e.2.toList)

theorem isLabel_iff {t : List Char} : isLabel t = true ↔ IsLabel t := by
  unfold isLabel
  constructor
  · intro h
    split at h
    · next word =>
      obtain ⟨hne, hall⟩ : word ≠ [] ∧ ∀ c ∈ word, Identifier.isWordChar c := by simpa using h
      exact ⟨word, hne, hall, .inr rfl⟩
    · obtain ⟨hne, hall⟩ : t ≠ [] ∧ ∀ c ∈ t, Identifier.isWordChar c := by simpa using h
      exact ⟨t, hne, hall, .inl rfl⟩
  · rintro ⟨word, hne, hall, rfl | rfl⟩
    · split
      · next word => exact absurd (hall '-' List.mem_cons_self) (by decide)
      · simpa using ⟨hne, hall⟩
    · simpa using ⟨hne, hall⟩

/-- A line is read as an entry if it is one. -/
theorem entryLine?_eq_some_iff {cs : List Char} {e : String × String} :
    entryLine? cs = some e ↔ IsEntry cs e := by
  constructor
  · intro h
    simp only [entryLine?] at h
    split at h
    · next label hlabel =>
      split_ifs at h with hvalid
      cases h
      rw [Bool.and_eq_true, isLabel_iff] at hvalid
      refine ⟨?_, ?_, ?_⟩
      · rw [Identifier.isValid, String.toList_ofList]
        exact hvalid.1
      · rw [String.toList_ofList]
        exact hvalid.2
      · have hsplit : cs =
            cs.takeWhile Identifier.isWordChar ++ cs.dropWhile Identifier.isWordChar :=
          List.takeWhile_append_dropWhile.symm
        simpa [hlabel] using hsplit
    · cases h
  · obtain ⟨name, label⟩ := e
    rintro ⟨hvalid, hlabel, rfl⟩
    -- The name ends at the colon, which is no word character.
    have hcolon : ∀ c ∈ (':' :: ' ' :: label.toList).head?, Identifier.isWordChar c = false := by
      rintro c ⟨⟩
      decide
    obtain ⟨htake, hdrop⟩ := span_append (Identifier.isWordChar_of_isValid hvalid) hcolon
    have hboth : (Identifier.isValidList name.toList && isLabel label.toList) = true :=
      Bool.and_eq_true_iff.2 ⟨hvalid, isLabel_iff.2 hlabel⟩
    show entryLine? (name.toList ++ ':' :: ' ' :: label.toList) = some (name, label)
    simp only [entryLine?, htake, hdrop]
    rw [if_pos hboth, String.ofList_toList, String.ofList_toList]

/-- A label that is a machine integer. -/
def IsAmount (label : String) (v : Int) : Prop :=
  Decimal.integer? label.toList = some v ∧ Word.InRange v

/-- An amount is read if the label is one. -/
theorem amount_eq_ok_iff {name label : String} (hlabel : IsLabel label.toList) {v : Int} :
    amount name label = .ok v ↔ IsAmount label v := by
  -- A number may begin with a plus sign, but a label does not.
  have hplus : label.toList.head? ≠ some '+' := by
    obtain ⟨word, hne, hall, hword | hword⟩ := hlabel
    · rw [hword]
      intro hhead
      exact absurd (hall '+' (List.mem_of_head? hhead)) (by decide)
    · rw [hword]
      simp
  rw [IsAmount, ← Decimal.readInt_eq_ok_iff hplus]
  unfold amount
  cases Decimal.readInt label <;> simp

theorem amount_error {name label : String} {e : LogError} (h : amount name label = .error e) :
    ∃ text, e = .invalidNumber text := by
  unfold amount at h
  split at h
  · cases h
  · exact ⟨_, (Except.error.inj h).symm⟩

end WeightedCsp.SolverLog

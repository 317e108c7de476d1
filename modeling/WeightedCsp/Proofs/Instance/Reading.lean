import WeightedCsp.Instance.Text
import WeightedCsp.Proofs.Decimal
import WeightedCsp.Proofs.Instance.Charges

/-!
# The written form determines the instance

Nothing is quoted in the written form, so what keeps its parts apart is the characters they are made
of: a name is of word characters, a number of digits and a sign, and what follows each of them is of
neither kind.  A kind of part is *told* (`Told`) if two parts of it at the front of one text are the
same part, with the same text after them.  Words are told by their characters, a list by the first
character of what is no item of it, and everything else piece by piece.  An instance is a list of
lines of variables, then a list of constraints; a constraint may well be named `variable`, but then
a colon follows.
-/

namespace WeightedCsp

namespace Text

/-! ### Telling parts of a text -/

/-- The text does not go on with a character of the kind. -/
def Stops (p : Char → Bool) (rest : List Char) : Prop := ∀ c ∈ rest.head?, p c = false

theorem stops_cons {p : Char → Bool} {c : Char} (h : p c = false) (rest : List Char) :
    Stops p (c :: rest) := by
  intro d hd
  cases hd
  exact h

/-- Two parts at the front of one text are the same, with the same text after them, if they are good
and the text after them stops. -/
def Told {α : Type} (good : α → Prop) (written : α → List Char) (stop : List Char → Prop) : Prop :=
  ∀ ⦃x y : α⦄ ⦃r s : List Char⦄, good x → good y → stop r → stop s →
    written x ++ r = written y ++ s → x = y ∧ r = s

/-- **Words** are told by their characters. -/
theorem told_word (p : Char → Bool) :
    Told (fun w : String => ∀ c ∈ w.toList, p c = true) String.toList (Stops p) := by
  intro v w r s hv hw hr hs h
  rw [← String.toList_inj]
  generalize v.toList = a at *
  generalize w.toList = b at *
  induction a generalizing b with
  | nil =>
    cases b with
    | nil => exact ⟨rfl, h⟩
    | cons c b =>
      have hc : p c = true := hw c List.mem_cons_self
      rw [show r = c :: (b ++ s) from h] at hr
      exact absurd hc (by simp [hr c rfl])
  | cons c a ih =>
    obtain ⟨hc, ha⟩ := List.forall_mem_cons.1 hv
    cases b with
    | nil =>
      rw [← show c :: (a ++ r) = s from h] at hs
      exact absurd hc (by simp [hs c rfl])
    | cons d b =>
      obtain ⟨rfl, htail⟩ := List.cons_eq_cons.1 h
      obtain ⟨rfl, hrest⟩ := ih ha b (List.forall_mem_cons.1 hw).2 htail
      exact ⟨rfl, hrest⟩

/-- **Lists.** Items that are told make a list that is told, if no item is at the front of what
follows the list. -/
theorem told_flatMap {α : Type} {good : α → Prop} {written : α → List Char}
    {stop : List Char → Prop} (h : Told good written stop)
    (hstop : ∀ x r, good x → stop (written x ++ r)) :
    Told (fun xs : List α => ∀ x ∈ xs, good x) (fun xs => xs.flatMap written)
      fun r => stop r ∧ ∀ x s, good x → r ≠ written x ++ s := by
  intro xs ys r s hxs hys hr hs heq
  -- What follows an item is another item or the end, and an item stops before either.
  have hgoes : ∀ (zs : List α) (t : List Char), (∀ z ∈ zs, good z) → stop t →
      stop (zs.flatMap written ++ t) := by
    intro zs t hzs ht
    cases zs with
    | nil => exact ht
    | cons z zs =>
      rw [List.flatMap_cons, List.append_assoc]
      exact hstop z _ (hzs z List.mem_cons_self)
  induction xs generalizing ys with
  | nil =>
    cases ys with
    | nil => exact ⟨rfl, heq⟩
    | cons y ys =>
      simp only [List.flatMap_cons, List.append_assoc] at heq
      exact absurd heq (hr.2 y _ (hys y List.mem_cons_self))
  | cons x xs ih =>
    obtain ⟨hx, hxs'⟩ := List.forall_mem_cons.1 hxs
    cases ys with
    | nil =>
      simp only [List.flatMap_cons, List.append_assoc] at heq
      exact absurd heq.symm (hs.2 x _ hx)
    | cons y ys =>
      obtain ⟨hy, hys'⟩ := List.forall_mem_cons.1 hys
      simp only [List.flatMap_cons, List.append_assoc] at heq
      obtain ⟨rfl, htail⟩ := h hx hy (hgoes xs r hxs' hr.1) (hgoes ys s hys' hs.1) heq
      obtain ⟨rfl, hrest⟩ := ih hxs' hys' htail
      exact ⟨rfl, hrest⟩

/-- A list with separators, as the items after the first one with a separator in front. -/
theorem intercalate_cons (sep l : List Char) (ls : List (List Char)) :
    sep.intercalate (l :: ls) = l ++ ls.flatMap (sep ++ ·) := by
  induction ls generalizing l with
  | nil => simp
  | cons m ls ih => simp [ih]

/-- A list with separators and one more at its end, as items each with a separator after it. -/
theorem intercalate_append_sep {sep : List Char} {ls : List (List Char)} (h : ls ≠ []) :
    sep.intercalate ls ++ sep = ls.flatMap (· ++ sep) := by
  induction ls with
  | nil => exact absurd rfl h
  | cons l ls ih =>
    cases ls with
    | nil => simp
    | cons m ls =>
      rw [List.intercalate_cons_cons, List.flatMap_cons, ← ih (List.cons_ne_nil m ls)]
      simp

end Text

namespace Instance

open Text

/-! ### Names and numbers -/

/-- Names end where no word character follows. -/
theorem told_name : Told (fun name : String => Identifier.isValid name = true) String.toList
    (Stops Identifier.isWordChar) :=
  fun _ _ _ _ hx hy => told_word _ (Identifier.isWordChar_of_isValid hx)
    (Identifier.isWordChar_of_isValid hy)

/-- The character is part of a numeral. -/
def isNumeralChar (c : Char) : Bool := c == '-' || c.isDigit

/-- The text is the numeral of an integer. -/
def isNumeral (text : String) : Bool := (Decimal.integer? text.toList).isSome

theorem isNumeralChar_of_isNumeral {text : String} (h : isNumeral text = true) :
    ∀ c ∈ text.toList, isNumeralChar c = true := by
  unfold isNumeral Decimal.integer? at h
  have hdigits : ∀ {cs : List Char}, Decimal.isDigits cs = true →
      ∀ c ∈ cs, isNumeralChar c = true := by
    intro cs hcs c hc
    simp [isNumeralChar, (Decimal.isDigits_iff.1 hcs).2 c hc]
  split at h
  · next cs heq =>
    rw [heq]
    exact List.forall_mem_cons.2 ⟨rfl, hdigits (by simpa using h)⟩
  · exact hdigits (by simpa using h)

theorem isNumeral_repr (k : Int) : isNumeral k.repr = true := by
  rw [isNumeral, Decimal.integer?_repr]
  rfl

theorem told_label : Told (fun label : String => isNumeral label = true) String.toList
    (Stops isNumeralChar) :=
  fun _ _ _ _ hx hy => told_word _ (isNumeralChar_of_isNumeral hx) (isNumeralChar_of_isNumeral hy)

/-- Numbers end where no digit follows. -/
theorem told_int : Told (fun _ : Int => True) (fun k => k.repr.toList) (Stops isNumeralChar) := by
  intro j k r s _ _ hr hs h
  obtain ⟨heq, hrest⟩ := told_label (isNumeral_repr j) (isNumeral_repr k) hr hs h
  exact ⟨repr_eq_repr.1 heq, hrest⟩

/-- A number begins with a character of a numeral. -/
theorem exists_repr_eq_cons (k : Int) :
    ∃ c cs, k.repr.toList = c :: cs ∧ isNumeralChar c = true := by
  cases hk : k.repr.toList with
  | nil =>
    have := Decimal.integer?_repr k
    simp [hk, Decimal.integer?, Decimal.isDigits] at this
  | cons c cs =>
    refine ⟨c, cs, rfl, isNumeralChar_of_isNumeral (isNumeral_repr k) c ?_⟩
    rw [hk]
    exact List.mem_cons_self

/-- The character is part of a written price. -/
def isPriceChar (c : Char) : Bool := Identifier.isWordChar c || isNumeralChar c

/-- **Prices.** A number begins with a digit or a sign, so it is not the word for a hard
constraint. -/
theorem told_price : Told (fun _ : Price => True) (fun w => w.text.toList) (Stops isPriceChar) := by
  have hchars : ∀ w : Price, ∀ c ∈ w.text.toList, isPriceChar c = true := by
    intro w
    cases w with
    | hard => exact List.all_eq_true.1 (by decide)
    | soft k =>
      intro c hc
      simp [isPriceChar, isNumeralChar_of_isNumeral (isNumeral_repr k) c hc]
  have hword : ∀ k : Int, "inf" ≠ k.repr := by
    intro k hk
    obtain ⟨c, cs, hcs, hc⟩ := exists_repr_eq_cons k
    rw [← hk] at hcs
    obtain ⟨rfl, -⟩ := List.cons_eq_cons.1 hcs
    exact absurd hc (by decide)
  intro v w r s _ _ hr hs h
  obtain ⟨htext, hrest⟩ := told_word _ (hchars v) (hchars w) hr hs h
  refine ⟨?_, hrest⟩
  cases v with
  | hard =>
    cases w with
    | hard => rfl
    | soft k => exact absurd htext (hword k)
  | soft j =>
    cases w with
    | hard => exact absurd htext.symm (hword j)
    | soft k => rw [repr_eq_repr.1 htext]

/-! ### Terms -/

/-- The variable of a term is an identifier, and its label a numeral. -/
def Term.Plain (t : Term) : Prop := Identifier.isValid t.var = true ∧ isNumeral t.label = true

theorem Term.toList_text (t : Term) : t.text.toList =
    t.coeff.repr.toList ++ '(' :: (t.var.toList ++ ',' :: ' ' :: (t.label.toList ++ [')'])) := by
  simp [Term.text]

/-- Terms can be told apart. -/
theorem told_term : Told Term.Plain (fun t => t.text.toList) fun _ => True := by
  rintro ⟨c, x, l⟩ ⟨d, y, k⟩ r s ⟨hx, hl⟩ ⟨hy, hk⟩ - - h
  simp only [Term.toList_text, List.append_assoc, List.cons_append, List.nil_append] at h
  obtain ⟨rfl, h₁⟩ :=
    told_int trivial trivial (stops_cons (by decide) _) (stops_cons (by decide) _) h
  obtain ⟨rfl, h₂⟩ := told_name hx hy (stops_cons (by decide) _) (stops_cons (by decide) _)
    (List.cons_eq_cons.1 h₁).2
  simp only [List.cons.injEq, true_and] at h₂
  obtain ⟨rfl, h₃⟩ := told_label hl hk (stops_cons (by decide) _) (stops_cons (by decide) _) h₂
  exact ⟨rfl, (List.cons_eq_cons.1 h₃).2⟩

/-- A term begins with a number. -/
theorem exists_term_eq_cons (t : Term) :
    ∃ c cs, t.text.toList = c :: cs ∧ isNumeralChar c = true := by
  obtain ⟨c, cs, hcs, hc⟩ := exists_repr_eq_cons t.coeff
  rw [Term.toList_text, hcs, List.cons_append]
  exact ⟨c, _, rfl, hc⟩

/-- Terms, each with a blank after it, and with the line breaks between them. -/
def spacedTerms (place : Nat) (terms : List Term) : List Char :=
  ((termTokens place terms).map String.toList).flatMap (· ++ [' '])

theorem spacedTerms_zero (t : Term) (ts : List Term) :
    spacedTerms 0 (t :: ts) =
      "\n     ".toList ++ (t.text.toList ++ (' ' :: spacedTerms 4 ts)) := by
  simp [spacedTerms, termTokens]

theorem spacedTerms_succ (place : Nat) (t : Term) (ts : List Term) :
    spacedTerms (place + 1) (t :: ts) =
      t.text.toList ++ (' ' :: spacedTerms place ts) := by
  simp [spacedTerms, termTokens]

/-- The character begins a term, or the line break before it. -/
def isTermStart (c : Char) : Bool := c == '\n' || isNumeralChar c

theorem not_stops_spacedTerms (place : Nat) (t : Term) (ts : List Term) (r : List Char) :
    ¬Stops isTermStart (spacedTerms place (t :: ts) ++ r) := by
  intro h
  cases place with
  | zero =>
    rw [spacedTerms_zero] at h
    exact absurd (h '\n' rfl) (by decide)
  | succ place =>
    obtain ⟨c, cs, hcs, hc⟩ := exists_term_eq_cons t
    rw [spacedTerms_succ, hcs] at h
    exact absurd (h c rfl) (by simp [isTermStart, hc])

/-- Lists of terms can be told apart, whatever the line breaks. -/
theorem told_spacedTerms (place : Nat) :
    Told (fun ts : List Term => ∀ t ∈ ts, t.Plain) (spacedTerms place) (Stops isTermStart) := by
  intro ts us r s hts hus hr hs h
  induction ts generalizing us place with
  | nil =>
    cases us with
    | nil => exact ⟨rfl, h⟩
    | cons u us =>
      rw [show r = spacedTerms place (u :: us) ++ s from h] at hr
      exact absurd hr (not_stops_spacedTerms place u us s)
  | cons t ts ih =>
    obtain ⟨ht, hts'⟩ := List.forall_mem_cons.1 hts
    cases us with
    | nil =>
      rw [← show spacedTerms place (t :: ts) ++ r = s from h] at hs
      exact absurd hs (not_stops_spacedTerms place t ts r)
    | cons u us =>
      obtain ⟨hu, hus'⟩ := List.forall_mem_cons.1 hus
      -- Both lists are at the same place, so they break their lines at the same terms.
      have hstep : ∃ next, t.text.toList ++ (' ' :: (spacedTerms next ts ++ r)) =
          u.text.toList ++ (' ' :: (spacedTerms next us ++ s)) := by
        cases place with
        | zero =>
          simp only [spacedTerms_zero, List.append_assoc, List.cons_append] at h
          exact ⟨4, List.append_cancel_left h⟩
        | succ place =>
          simp only [spacedTerms_succ, List.append_assoc, List.cons_append] at h
          exact ⟨place, h⟩
      obtain ⟨next, hnext⟩ := hstep
      obtain ⟨rfl, htail⟩ := told_term ht hu trivial trivial hnext
      obtain ⟨rfl, hrest⟩ := ih next hts' hus' (List.cons_eq_cons.1 htail).2
      exact ⟨rfl, hrest⟩

/-! ### Constraints -/

/-- What stands after the terms of a linear constraint. -/
def comparisonText (rel : Relation) (rhs : Int) : List Char :=
  rel.text.toList ++ ' ' :: (rhs.repr.toList ++ ['\n'])

theorem stops_comparisonText (rel : Relation) (rhs : Int) (r : List Char) :
    Stops isTermStart (comparisonText rel rhs ++ r) := by
  cases rel with
  | le | ge | eq => exact stops_cons (by decide) _

/-- Comparisons can be told apart. -/
theorem told_comparison : Told (fun _ : Relation × Int => True)
    (fun p => comparisonText p.1 p.2) fun _ => True := by
  rintro ⟨rel, k⟩ ⟨rel', k'⟩ r s - - - - h
  -- The constant ends at the line break, so equal texts have equal constants.
  have hrhs : ∀ {j j' : Int}, j.repr.toList ++ '\n' :: r = j'.repr.toList ++ '\n' :: s →
      j = j' ∧ r = s := by
    intro j j' hj
    obtain ⟨heq, hrest⟩ :=
      told_int trivial trivial (stops_cons (by decide) _) (stops_cons (by decide) _) hj
    exact ⟨heq, (List.cons_eq_cons.1 hrest).2⟩
  simp only [comparisonText, List.append_assoc, List.cons_append, List.nil_append] at h
  cases rel with
  | le =>
    cases rel' with
    | le =>
      obtain ⟨rfl, hrest⟩ := hrhs (by simpa [Relation.text] using h)
      exact ⟨rfl, hrest⟩
    | ge | eq => simp [Relation.text] at h
  | ge =>
    cases rel' with
    | ge =>
      obtain ⟨rfl, hrest⟩ := hrhs (by simpa [Relation.text] using h)
      exact ⟨rfl, hrest⟩
    | le | eq => simp [Relation.text] at h
  | eq =>
    cases rel' with
    | eq =>
      obtain ⟨rfl, hrest⟩ := hrhs (by simpa [Relation.text] using h)
      exact ⟨rfl, hrest⟩
    | le | ge => simp [Relation.text] at h

/-- What stands after the kind of a demand. -/
def Demand.written : Demand → List Char
  | .linear terms rel rhs => (" ".intercalate (termTokens 0 terms)).toList ++
      ' ' :: comparisonText rel rhs
  | .allDifferent vars => (" ".intercalate vars).toList ++ " ;\n".toList

/-- The kind of a demand. -/
def Demand.kind : Demand → String
  | .linear _ _ _ => "linear "
  | .allDifferent _ => "alldiff "

theorem Con.toList_text (c : Con) : c.text.toList = c.name.toList ++ ':' :: (" weight = ".toList ++
    (c.weight.text.toList ++ ' ' :: ("type = ".toList ++
      (c.demand.kind.toList ++ c.demand.written)))) := by
  obtain ⟨name, weight, demand⟩ := c
  cases demand with
  | linear terms rel rhs =>
    simp only [Con.text, Demand.kind, Demand.written, comparisonText, String.toList_append,
      List.append_assoc]
    simp
  | allDifferent vars =>
    simp only [Con.text, Demand.kind, Demand.written, String.toList_append, List.append_assoc]
    simp

/-- What a demand speaks of is written plainly. -/
def Demand.Plain : Demand → Prop
  | .linear terms _ _ => ∀ t ∈ terms, t.Plain
  | .allDifferent vars => ∀ x ∈ vars, Identifier.isValid x = true

/-- Terms and what they are compared with, with the blank between them in its place. -/
theorem written_linear {terms : List Term} (h : terms ≠ []) (rel : Relation) (rhs : Int) :
    (Demand.linear terms rel rhs).written = spacedTerms 0 terms ++ comparisonText rel rhs := by
  have hne : (termTokens 0 terms).map String.toList ≠ [] := by
    obtain ⟨t, ts, rfl⟩ := List.exists_cons_of_ne_nil h
    simp [termTokens]
  rw [spacedTerms, ← intercalate_append_sep hne, Demand.written, String.toList_intercalate]
  simp

theorem told_linear {terms terms' : List Term} {rel rel' : Relation} {rhs rhs' : Int}
    {r s : List Char} (hterms : ∀ t ∈ terms, t.Plain) (hterms' : ∀ t ∈ terms', t.Plain)
    (h : (Demand.linear terms rel rhs).written ++ r =
      (Demand.linear terms' rel' rhs').written ++ s) :
    Demand.linear terms rel rhs = Demand.linear terms' rel' rhs' ∧ r = s := by
  have hcompare : comparisonText rel rhs ++ r = comparisonText rel' rhs' ++ s →
      (rel, rhs) = (rel', rhs') ∧ r = s := fun hc =>
    told_comparison (x := (rel, rhs)) (y := (rel', rhs')) trivial trivial trivial trivial hc
  -- The first term is written without a blank before it: no terms and some terms differ at once.
  have hbreak : ∀ {t : Term} {ts : List Term} {q q' : List Char},
      ' ' :: q ≠ spacedTerms 0 (t :: ts) ++ q' := by
    intro t ts q q' heq
    rw [spacedTerms_zero] at heq
    simp at heq
  cases terms with
  | nil =>
    cases terms' with
    | nil =>
      obtain ⟨heq, hrest⟩ := hcompare (List.cons_eq_cons.1 h).2
      cases heq
      exact ⟨rfl, hrest⟩
    | cons t ts =>
      rw [written_linear (List.cons_ne_nil t ts), List.append_assoc] at h
      exact absurd h hbreak
  | cons t ts =>
    rw [written_linear (List.cons_ne_nil t ts), List.append_assoc] at h
    cases terms' with
    | nil => exact absurd h.symm hbreak
    | cons u us =>
      rw [written_linear (List.cons_ne_nil u us), List.append_assoc] at h
      obtain ⟨hsame, htail⟩ := told_spacedTerms 0 hterms hterms' (stops_comparisonText rel rhs r)
        (stops_comparisonText rel' rhs' s) h
      obtain ⟨heq, hrest⟩ := hcompare htail
      cases heq
      rw [hsame]
      exact ⟨rfl, hrest⟩

/-- Lists of names can be told apart. -/
theorem told_spacedNames : Told (fun xs : List String => ∀ x ∈ xs, Identifier.isValid x = true)
    (fun xs => xs.flatMap fun x => x.toList ++ [' ']) fun r => ∃ r', r = ';' :: r' := by
  have hname : Told (fun x : String => Identifier.isValid x = true) (fun x => x.toList ++ [' '])
      fun _ => True := by
    intro x y r s hx hy _ _ h
    simp only [List.append_assoc, List.cons_append, List.nil_append] at h
    obtain ⟨rfl, hrest⟩ := told_name hx hy (stops_cons (by decide) _) (stops_cons (by decide) _) h
    exact ⟨rfl, (List.cons_eq_cons.1 hrest).2⟩
  have hend : ∀ r, (∃ r', r = ';' :: r') → ∀ (x : String) (s : List Char),
      Identifier.isValid x = true → r ≠ (x.toList ++ [' ']) ++ s := by
    rintro r ⟨r', rfl⟩ x s hx heq
    obtain ⟨c, cs, hcs, hc⟩ := Identifier.isValid_cons hx
    rw [hcs] at heq
    obtain ⟨rfl, -⟩ := List.cons_eq_cons.1 heq
    exact absurd hc (by decide)
  intro xs ys r s hxs hys hr hs h
  exact told_flatMap hname (fun _ _ _ => trivial) hxs hys ⟨trivial, hend r hr⟩
    ⟨trivial, hend s hs⟩ h

theorem written_allDifferent {vars : List String} (h : vars ≠ []) :
    (Demand.allDifferent vars).written =
      (vars.flatMap fun x => x.toList ++ [' ']) ++ [';', '\n'] := by
  have hne : vars.map String.toList ≠ [] := by simpa using h
  have hspaced : [' '].intercalate (vars.map String.toList) ++ [' '] =
      vars.flatMap fun x => x.toList ++ [' '] := by
    rw [intercalate_append_sep hne, List.flatMap_map]
  rw [← hspaced, Demand.written, String.toList_intercalate]
  simp

theorem told_allDifferent {vars vars' : List String} {r s : List Char}
    (hvars : ∀ x ∈ vars, Identifier.isValid x = true)
    (hvars' : ∀ x ∈ vars', Identifier.isValid x = true)
    (h : (Demand.allDifferent vars).written ++ r = (Demand.allDifferent vars').written ++ s) :
    Demand.allDifferent vars = Demand.allDifferent vars' ∧ r = s := by
  -- Without variables there is a blank where the first name would begin.
  have hblank : ∀ {xs : List String} {q q' : List Char}, xs ≠ [] →
      (∀ x ∈ xs, Identifier.isValid x = true) →
      (Demand.allDifferent []).written ++ q ≠ (Demand.allDifferent xs).written ++ q' := by
    intro xs q q' hne hxs heq
    obtain ⟨x, xs, rfl⟩ := List.exists_cons_of_ne_nil hne
    obtain ⟨c, cs, hcs, hc⟩ := Identifier.isValid_cons (hxs x List.mem_cons_self)
    rw [written_allDifferent hne, List.flatMap_cons, hcs] at heq
    obtain ⟨rfl, -⟩ := List.cons_eq_cons.1 heq
    exact absurd hc (by decide)
  by_cases hnil : vars = []
  · by_cases hnil' : vars' = []
    · subst hnil hnil'
      exact ⟨rfl, List.append_cancel_left h⟩
    · subst hnil
      exact absurd h (hblank hnil' hvars')
  · by_cases hnil' : vars' = []
    · subst hnil'
      exact absurd h.symm (hblank hnil hvars)
    · rw [written_allDifferent hnil, written_allDifferent hnil', List.append_assoc,
        List.append_assoc] at h
      obtain ⟨rfl, hrest⟩ := told_spacedNames hvars hvars' ⟨_, rfl⟩ ⟨_, rfl⟩ h
      exact ⟨rfl, by simpa using hrest⟩

/-- Demands can be told apart. -/
theorem told_demand : Told Demand.Plain (fun d => d.kind.toList ++ d.written) fun _ => True := by
  intro d e r s hd he _ _ h
  rw [List.append_assoc, List.append_assoc] at h
  cases d with
  | linear terms rel rhs =>
    cases e with
    | linear terms' rel' rhs' => exact told_linear hd he (List.append_cancel_left h)
    | allDifferent vars => simp [Demand.kind] at h
  | allDifferent vars =>
    cases e with
    | linear terms rel rhs => simp [Demand.kind] at h
    | allDifferent vars' => exact told_allDifferent hd he (List.append_cancel_left h)

/-- The name of a constraint is an identifier, and what it speaks of is written plainly. -/
def Con.Plain (c : Con) : Prop := Identifier.isValid c.name = true ∧ c.demand.Plain

/-- **Constraints** can be told apart. -/
theorem told_con : Told Con.Plain (fun c => c.text.toList) fun _ => True := by
  rintro ⟨n, w, d⟩ ⟨n', w', d'⟩ r s ⟨hn, hd⟩ ⟨hn', hd'⟩ - - h
  simp only [Con.toList_text, List.append_assoc, List.cons_append] at h
  obtain ⟨rfl, h₁⟩ := told_name hn hn' (stops_cons (by decide) _) (stops_cons (by decide) _) h
  have h₂ := List.append_cancel_left (List.cons_eq_cons.1 h₁).2
  obtain ⟨rfl, h₃⟩ :=
    told_price trivial trivial (stops_cons (by decide) _) (stops_cons (by decide) _) h₂
  have h₄ := List.append_cancel_left (List.cons_eq_cons.1 h₃).2
  simp only [← List.append_assoc] at h₄
  obtain ⟨rfl, hrest⟩ := told_demand hd hd' trivial trivial h₄
  exact ⟨rfl, hrest⟩

/-! ### Variables -/

/-- The name of a variable is an identifier, and it has labels, which are numerals. -/
def Var.Plain (x : Var) : Prop :=
  Identifier.isValid x.name = true ∧ x.labels ≠ [] ∧ ∀ l ∈ x.labels, isNumeral l = true

theorem Var.toList_text (x : Var) : x.text.toList = "variable".toList ++ ' ' :: (x.name.toList ++
    ' ' :: ("in \x7b".toList ++
      ([',', ' '].intercalate (x.labels.map String.toList) ++ ['\x7d', '\n']))) := by
  simp only [Var.text, String.toList_append, List.append_assoc]
  simp

/-- Lists of labels can be told apart. -/
theorem told_labels : Told (fun ls : List String => ls ≠ [] ∧ ∀ l ∈ ls, isNumeral l = true)
    (fun ls => [',', ' '].intercalate (ls.map String.toList)) fun r => ∃ r', r = '\x7d' :: r' := by
  have hlabel : Told (fun l : String => isNumeral l = true) (fun l => [',', ' '] ++ l.toList)
      (Stops isNumeralChar) := by
    intro l k r s hl hk hr hs h
    rw [List.append_assoc, List.append_assoc] at h
    exact told_label hl hk hr hs (List.append_cancel_left h)
  rintro ls ks _ _ ⟨hne, hall⟩ ⟨hne', hall'⟩ ⟨r, rfl⟩ ⟨s, rfl⟩ h
  obtain ⟨l, ls, rfl⟩ := List.exists_cons_of_ne_nil hne
  obtain ⟨k, ks, rfl⟩ := List.exists_cons_of_ne_nil hne'
  simp only [List.map_cons, intercalate_cons, List.append_assoc, List.flatMap_map] at h
  obtain ⟨hl, hls⟩ := List.forall_mem_cons.1 hall
  obtain ⟨hk, hks⟩ := List.forall_mem_cons.1 hall'
  -- After a label comes a comma or the closing brace, neither of which belongs to a numeral.
  have hstop : ∀ (ms : List String) (q : List Char),
      Stops isNumeralChar ((ms.flatMap fun m => [',', ' '] ++ m.toList) ++ '\x7d' :: q) := by
    intro ms q
    cases ms with
    | nil => exact stops_cons (by decide) _
    | cons m ms => exact stops_cons (by decide) _
  obtain ⟨rfl, h₁⟩ := told_label hl hk (hstop ls r) (hstop ks s) h
  have hend : ∀ q : List Char, Stops isNumeralChar ('\x7d' :: q) ∧
      ∀ (m : String) (t : List Char), isNumeral m = true →
        '\x7d' :: q ≠ [',', ' '] ++ m.toList ++ t :=
    fun q => ⟨stops_cons (by decide) _, fun m t _ heq => by simp at heq⟩
  obtain ⟨rfl, hrest⟩ := told_flatMap hlabel (fun m t _ => stops_cons (by decide) _) hls hks
    (hend r) (hend s) h₁
  exact ⟨rfl, hrest⟩

/-- **Variables** can be told apart. -/
theorem told_var : Told Var.Plain (fun x => x.text.toList) fun _ => True := by
  rintro ⟨n, ls⟩ ⟨n', ls'⟩ r s ⟨hn, hls⟩ ⟨hn', hls'⟩ - - h
  simp only [Var.toList_text, List.append_assoc, List.cons_append] at h
  have h₁ := (List.cons_eq_cons.1 (List.append_cancel_left h)).2
  obtain ⟨rfl, h₂⟩ := told_name hn hn' (stops_cons (by decide) _) (stops_cons (by decide) _) h₁
  have h₃ := List.append_cancel_left (List.cons_eq_cons.1 h₂).2
  obtain ⟨rfl, h₄⟩ := told_labels hls hls' ⟨_, rfl⟩ ⟨_, rfl⟩ h₃
  exact ⟨rfl, by simpa using h₄⟩

/-- A constraint does not look like a variable, whatever its name. -/
theorem con_ne_var {c : Con} (hc : c.Plain) (x : Var) (r s : List Char) :
    c.text.toList ++ r ≠ x.text.toList ++ s := by
  intro h
  simp only [Con.toList_text, Var.toList_text, List.append_assoc, List.cons_append] at h
  obtain ⟨-, hrest⟩ := told_name hc.1 (show Identifier.isValid "variable" = true by decide)
    (stops_cons (by decide) _) (stops_cons (by decide) _) h
  cases hrest

/-! ### Instances -/

/-- The labels that a constraint speaks of. -/
def Con.labels (c : Con) : List String :=
  match c.demand with
  | .linear terms _ _ => terms.map (·.label)
  | .allDifferent _ => []

/-- Names are identifiers and labels are numerals, of which every variable has one. -/
structure Plain (i : Instance) : Prop where
  vars : ∀ x ∈ i.vars, x.Plain
  constraints : ∀ c ∈ i.constraints,
    Identifier.isValid c.name = true ∧ ∀ l ∈ c.labels, isNumeral l = true

/-- Constraints speak of variables of the instance. -/
theorem Entered.declared {i : Instance} (hi : i.Entered) :
    ∀ c ∈ i.constraints, ∀ n ∈ c.varNames, n ∈ i.vars.map (·.name) := by
  induction hi with
  | empty => exact List.forall_mem_nil _
  | addVar _ h ih =>
    obtain ⟨-, rfl⟩ := addVar_eq_ok h
    intro c hc n hn
    obtain ⟨x, hx, hname⟩ := List.mem_map.1 (ih c hc n hn)
    exact List.mem_map.2 ⟨x, List.mem_append_left _ hx, hname⟩
  | addCon hi h ih =>
    obtain ⟨-, hnew, rfl⟩ := hi.indexed.addCon_eq_ok_iff.1 h
    exact List.forall_mem_append.2 ⟨ih, List.forall_mem_singleton.2 hnew⟩

/-- The constraints of a plain instance are plain. -/
theorem Entered.con_plain {i : Instance} (hi : i.Entered) (hplain : i.Plain) :
    ∀ c ∈ i.constraints, c.Plain := by
  intro c hc
  obtain ⟨hname, hlabels⟩ := hplain.constraints c hc
  have hvars : ∀ n ∈ c.varNames, Identifier.isValid n = true := by
    intro n hn
    obtain ⟨x, hx, rfl⟩ := List.mem_map.1 (hi.declared c hc n hn)
    exact (hplain.vars x hx).1
  refine ⟨hname, ?_⟩
  unfold Con.varNames at hvars
  unfold Con.labels at hlabels
  cases hdemand : c.demand with
  | linear terms rel rhs =>
    rw [hdemand] at hvars hlabels
    exact fun t ht => ⟨hvars _ (List.mem_map_of_mem ht), hlabels _ (List.mem_map_of_mem ht)⟩
  | allDifferent vars =>
    rw [hdemand] at hvars
    exact hvars

theorem toList_text (i : Instance) : i.text.toList =
    i.vars.flatMap (fun x => x.text.toList) ++ i.constraints.flatMap (fun c => c.text.toList) := by
  rw [text, String.toList_append, String.toList_join, String.toList_join, List.flatMap_map,
    List.flatMap_map]

/-! ### Instances of models, and gates -/

/-- Writing variables keeps an instance that was entered. -/
theorem entered_enterVariables {xs : List Variable} {i j : Instance} {s t : Scribe}
    (hi : i.Entered) (h : Scribe.enterVariables i xs s = .ok j t) : j.Entered := by
  induction xs generalizing i s with
  | nil =>
    obtain ⟨rfl, -⟩ := Step.pure_eq_ok.1 h
    exact hi
  | cons x xs ih =>
    obtain ⟨v, s₁, -, h₁⟩ := Step.bind_eq_ok.1 h
    obtain ⟨i₁, s₂, hentered, h₂⟩ := Step.bind_eq_ok.1 h₁
    obtain ⟨hok, rfl⟩ := Step.except_eq_ok.1 hentered
    exact ih (.addVar hi (entering_eq_ok.1 hok)) h₂

/-- Writing constraints keeps an instance that was entered. -/
theorem entered_enterConstraints {cs : List Constraint} {i j : Instance} {s t : Scribe}
    (hi : i.Entered) (h : Scribe.enterConstraints i cs s = .ok j t) : j.Entered := by
  induction cs generalizing i s with
  | nil =>
    obtain ⟨rfl, -⟩ := Step.pure_eq_ok.1 h
    exact hi
  | cons c cs ih =>
    obtain ⟨k, s₁, -, h₁⟩ := Step.bind_eq_ok.1 h
    obtain ⟨i₁, s₂, hentered, h₂⟩ := Step.bind_eq_ok.1 h₁
    obtain ⟨hok, rfl⟩ := Step.except_eq_ok.1 hentered
    exact ih (.addCon hi (entering_eq_ok.1 hok)) h₂

theorem isNumeral_labels_conFor (c : Constraint) :
    ∀ l ∈ (conFor c).labels, isNumeral l = true := by
  obtain ⟨name, weight, body⟩ := c
  cases body with
  | linear terms op rhs =>
    intro l hl
    obtain ⟨u, hu, rfl⟩ := List.mem_map.1 hl
    obtain ⟨t, ht, hut⟩ := List.mem_flatMap.1 hu
    obtain ⟨v, -, rfl⟩ := List.mem_map.1 hut
    exact isNumeral_repr v
  | pseudoBoolean terms op rhs | conflict terms =>
    intro l hl
    obtain ⟨u, hu, rfl⟩ := List.mem_map.1 hl
    obtain ⟨t, ht, rfl⟩ := List.mem_map.1 hu
    exact isNumeral_repr t.value
  | allDifferent xs => simp [Con.labels, conFor, demandFor]

/-- The instance of a model is put together entry by entry, and is plain. -/
theorem writeModel_plain {m : Model} (hm : m.Built) {i : Instance} {s : Scribe}
    (h : Scribe.writeModel m .start = .ok i s) : i.Entered ∧ i.Plain := by
  have hform := hm.wellFormed
  refine ⟨?_, ?_⟩
  · obtain ⟨i₁, s₁, hvars, hcons⟩ := Step.bind_eq_ok.1 h
    exact entered_enterConstraints (entered_enterVariables .empty hvars) hcons
  · obtain ⟨-, rfl, -⟩ := (writeModel_eq_ok hform).1 h
    refine ⟨List.forall_mem_map.2 fun x hx => ⟨hform.varNames x hx, ?_, ?_⟩,
      List.forall_mem_map.2 fun c hc => ⟨(hform.constraints c hc).name, isNumeral_labels_conFor c⟩⟩
    · simpa [Scribe.varOf] using x.domain.nonempty
    · exact List.forall_mem_map.2 fun v _ => isNumeral_repr v

theorem isValid_append_padded {stem : String} (h : Identifier.isValid stem = true) (width n : Nat) :
    Identifier.isValid (stem ++ Decimal.padded width n) = true := by
  obtain ⟨c, cs, hcs, hc⟩ := Identifier.isValid_cons h
  have hword := Identifier.isWordChar_of_isValid h
  rw [hcs] at hword
  have hdigit : ∀ d ∈ (Decimal.padded width n).toList, Identifier.isWordChar d = true := by
    intro d hd
    rw [Names.toList_padded, List.mem_append] at hd
    have hisDigit : d.isDigit := by
      rcases hd with hd | hd
      · rw [(List.mem_replicate.1 hd).2]
        rfl
      · exact Nat.isDigit_of_mem_toDigits (by decide) (by decide) hd
    obtain ⟨hlow, hhigh⟩ := Decimal.isDigit_iff.1 hisDigit
    simp [Identifier.isWordChar, hlow, hhigh]
  rw [Identifier.isValid, String.toList_append, hcs, List.cons_append, Identifier.isValidList, hc,
    Bool.true_and, List.all_eq_true]
  exact List.forall_mem_append.2 ⟨(List.forall_mem_cons.1 hword).2, hdigit⟩

/-- A plain variable keeps an instance plain. -/
theorem Plain.addVar {i j : Instance} {x : Var} (hi : i.Plain) (hx : x.Plain)
    (h : addVar x i = .ok () j) : j.Plain := by
  obtain ⟨-, rfl⟩ := addVar_eq_ok h
  exact ⟨List.forall_mem_append.2 ⟨hi.vars, List.forall_mem_singleton.2 hx⟩, hi.constraints⟩

/-- A constraint with plain labels keeps an instance plain. -/
theorem Plain.addCon {i j : Instance} {c : Con} (hi : i.Plain)
    (hname : Identifier.isValid c.name = true) (hlabels : ∀ l ∈ c.labels, isNumeral l = true)
    (h : addCon c i = .ok () j) : j.Plain := by
  obtain ⟨-, -, rfl⟩ := addCon_eq_ok h
  exact ⟨hi.vars, List.forall_mem_append.2
    ⟨hi.constraints, List.forall_mem_singleton.2 ⟨hname, hlabels⟩⟩⟩

theorem put_eq_ok {x : Entering Unit} {i j : Instance} {s t : Scribe} {u : Unit}
    (h : Scribe.put x (s, i) = .ok u (t, j)) : x i = .ok () j ∧ s = t := by
  unfold Scribe.put at h
  dsimp only at h
  split at h
  · next heq =>
    cases h
    exact ⟨heq, rfl⟩
  · cases h

/-- What a gate adds to an instance. -/
theorem andGate_eq_ok {terms : List Term} {offset : Int} {name : String} {i j : Instance}
    {s t : Scribe} (h : Scribe.andGate terms offset (s, i) = .ok name (t, j)) :
    ∃ (id : String) (i₁ i₂ : Instance), id = Decimal.padded 4 s.gates ∧ name = "temp" ++ id ∧
      addVar ⟨"temp" ++ id, ["0", "1"]⟩ i = .ok () i₁ ∧
      addCon ⟨"AND_UB_" ++ id, .hard,
        .linear (terms ++ [⟨-(terms.length : Int), "temp" ++ id, "1"⟩]) .le
          (terms.length - 1 - offset)⟩ i₁ = .ok () i₂ ∧
      addCon ⟨"AND_LB_" ++ id, .hard,
        .linear (terms ++ [⟨terms.length, "temp" ++ id, "0"⟩]) .ge (terms.length - offset)⟩ i₂ =
          .ok () j := by
  obtain ⟨number, ⟨s₁, i₁⟩, hgate, h₁⟩ := Step.bind_eq_ok.1 h
  cases hgate
  obtain ⟨u, ⟨s₂, i₂⟩, hvar, h₂⟩ := Step.bind_eq_ok.1 h₁
  obtain ⟨upper, q, hupper, h₃⟩ := Step.bind_eq_ok.1 h₂
  obtain ⟨hsub, rfl⟩ := Step.checked_eq_ok.1 hupper
  obtain ⟨u', ⟨s₃, i₃⟩, hcon, h₄⟩ := Step.bind_eq_ok.1 h₃
  obtain ⟨lower, q', hlower, h₅⟩ := Step.bind_eq_ok.1 h₄
  obtain ⟨hsub', rfl⟩ := Step.checked_eq_ok.1 hlower
  obtain ⟨u'', ⟨s₄, i₄⟩, hcon', h₆⟩ := Step.bind_eq_ok.1 h₅
  cases h₆
  obtain ⟨first, hfirst, hsecond⟩ := Checked.bind_eq_ok.1 hsub
  obtain ⟨-, rfl⟩ := Word.fit_eq_ok_iff.1 hfirst
  obtain ⟨-, rfl⟩ := Word.fit_eq_ok_iff.1 hsecond
  obtain ⟨-, rfl⟩ := Word.fit_eq_ok_iff.1 hsub'
  exact ⟨_, i₂, i₃, rfl, rfl, (put_eq_ok hvar).1, (put_eq_ok hcon).1, (put_eq_ok hcon').1⟩

/-- A gate over numerals keeps an instance plain. -/
theorem andGate_plain {terms : List Term} {offset : Int} {name : String} {i j : Instance}
    {s t : Scribe} (hentered : i.Entered) (hplain : i.Plain)
    (hterms : ∀ t ∈ terms, isNumeral t.label = true)
    (h : Scribe.andGate terms offset (s, i) = .ok name (t, j)) : j.Entered ∧ j.Plain := by
  obtain ⟨id, i₁, i₂, rfl, -, hvar, hupper, hlower⟩ := andGate_eq_ok h
  refine ⟨.addCon (.addCon (.addVar hentered hvar) hupper) hlower, ?_⟩
  have hlabels : ∀ t : Term, isNumeral t.label = true →
      ∀ l ∈ (terms ++ [t]).map (·.label), isNumeral l = true := by
    intro t ht
    exact List.forall_mem_map.2 (List.forall_mem_append.2 ⟨hterms, List.forall_mem_singleton.2 ht⟩)
  have hzero : isNumeral "0" = true := by decide
  have hone : isNumeral "1" = true := by decide
  refine ((hplain.addVar ?_ hvar).addCon ?_ ?_ hupper).addCon ?_ ?_ hlower
  · exact ⟨isValid_append_padded (by decide) _ _, by simp, by simp [hzero, hone]⟩
  · exact isValid_append_padded (by decide) _ _
  · exact hlabels _ hone
  · exact isValid_append_padded (by decide) _ _
  · exact hlabels _ hzero

/-- **The written form determines the instance.** Two plain instances with the same text have the
same variables over the same labels, and the same constraints; instances of models are plain, and
gates keep them so. -/
theorem text_determines :
    (∀ i j : Instance, i.Entered → i.Plain → j.Entered → j.Plain → i.text = j.text →
      i.vars = j.vars ∧ i.constraints = j.constraints) ∧
    (∀ (m : Model) (i : Instance) (s : Scribe), m.Built → Scribe.writeModel m .start = .ok i s →
      i.Entered ∧ i.Plain) ∧
    ∀ (terms : List Term) (offset : Int) (name : String) (i j : Instance) (s t : Scribe),
      i.Entered → i.Plain → (∀ t ∈ terms, isNumeral t.label = true) →
      Scribe.andGate terms offset (s, i) = .ok name (t, j) → j.Entered ∧ j.Plain := by
  refine ⟨fun i j hi hi' hj hj' h => ?_, fun m i s hm h => writeModel_plain hm h,
    fun terms offset name i j s t hi hi' hterms h => andGate_plain hi hi' hterms h⟩
  have hlist := congrArg String.toList h
  rw [toList_text, toList_text] at hlist
  -- What follows the variables is empty or begins with a constraint.
  have hend : ∀ cs : List Con, (∀ c ∈ cs, c.Plain) → True ∧ ∀ (x : Var) (s : List Char), x.Plain →
      cs.flatMap (fun c => c.text.toList) ≠ x.text.toList ++ s := by
    intro cs hcs
    refine ⟨trivial, fun x s _ heq => ?_⟩
    cases cs with
    | nil =>
      rw [Var.toList_text] at heq
      simp at heq
    | cons c cs =>
      rw [List.flatMap_cons] at heq
      exact con_ne_var (hcs c List.mem_cons_self) x _ _ heq
  have hcs := hi.con_plain hi'
  have hcs' := hj.con_plain hj'
  obtain ⟨hvars, hrest⟩ := told_flatMap told_var (fun _ _ _ => trivial) hi'.vars hj'.vars
    (hend _ hcs) (hend _ hcs') hlist
  have hlast : True ∧ ∀ (c : Con) (s : List Char), c.Plain → [] ≠ c.text.toList ++ s := by
    refine ⟨trivial, fun c s _ heq => ?_⟩
    rw [Con.toList_text] at heq
    simp at heq
  refine ⟨hvars, (told_flatMap told_con (fun _ _ _ => trivial) hcs hcs' hlast hlast ?_).1⟩
  rw [List.append_nil, List.append_nil]
  exact hrest

/-- Constraints whose names look like other parts of a text. -/
def lookalikes : List Con :=
  [⟨"variable", .soft 2, .linear [] .eq (-1)⟩, ⟨"type", .hard, .allDifferent ["inf"]⟩,
    ⟨"weight", .hard, .linear [⟨-3, "inf", "-1"⟩] .ge 0⟩]

/-- One variable under some of these constraints. -/
def lookalike (n : Nat) : Instance := .ofLists [⟨"inf", ["0", "-1"]⟩] (lookalikes.take n)

/-- Entered in two ways, an instance has one text, and with a constraint less it has another. -/
theorem text_determines_lookalike : ∃ j : Instance,
    addCon ⟨"weight", .hard, .linear [⟨-3, "inf", "-1"⟩] .ge 0⟩ (lookalike 2) = .ok () j ∧
    (j.Entered ∧ j.Plain) ∧ j.text = (lookalike 3).text ∧ j.vars = (lookalike 3).vars ∧
    j.constraints = (lookalike 3).constraints ∧ j.text ≠ (lookalike 2).text := by
  have h₀ : (lookalike 0).Entered := .addVar .empty (x := ⟨"inf", ["0", "-1"]⟩) rfl
  have h₁ : (lookalike 1).Entered :=
    .addCon h₀ (k := ⟨"variable", .soft 2, .linear [] .eq (-1)⟩) rfl
  have h₂ : (lookalike 2).Entered :=
    .addCon h₁ (k := ⟨"type", .hard, .allDifferent ["inf"]⟩) rfl
  have h₃ : (lookalike 3).Entered :=
    .addCon h₂ (k := ⟨"weight", .hard, .linear [⟨-3, "inf", "-1"⟩] .ge 0⟩) rfl
  have hplain : ∀ n, (lookalike n).Plain := by
    have hcons : ∀ c ∈ lookalikes, Identifier.isValid c.name = true ∧
        ∀ l ∈ c.labels, isNumeral l = true := by decide
    refine fun n => ⟨?_, fun c hc => hcons c (List.mem_of_mem_take hc)⟩
    exact List.forall_mem_singleton.2 ⟨by decide, by decide, by decide⟩
  obtain ⟨hvars, hcons⟩ := text_determines.1 _ (lookalike 3) h₃ (hplain 3) h₃ (hplain 3) rfl
  refine ⟨lookalike 3, rfl, ⟨h₃, hplain 3⟩, rfl, hvars, hcons, fun h => ?_⟩
  have hless := (text_determines.1 _ _ h₃ (hplain 3) h₂ (hplain 2) h).2
  exact absurd hless (by decide)

end Instance

end WeightedCsp

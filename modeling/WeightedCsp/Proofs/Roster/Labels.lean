import Mathlib.Data.List.Basic
import Mathlib.Data.List.Nodup
import WeightedCsp.Proofs.Formulation.Names
import WeightedCsp.Proofs.Roster.Drawing
import WeightedCsp.Roster.Model

/-!
# The names of rules and wishes

A constraint of a roster is named by the number of its rule, and by what it is about: members, days,
shifts and lengths, each a number after a letter that says what it counts (`Label`).  The numbers
have two digits at least and as many as they need, so it is the underscores that keep them apart
(`Label.name_injective`), however large they are.

The labels of a well-formed roster are told apart by their rules, and those of one rule by the
numbers it is about (`WellFormed.nodup_labels`).
-/

namespace WeightedCsp

theorem Identifier.isWordChar_of_isDigit {c : Char} (h : c.isDigit) : isWordChar c = true := by
  simp only [Char.isDigit, ge_iff_le, Bool.and_eq_true, decide_eq_true_eq] at h
  simp only [isWordChar, Bool.or_eq_true, Bool.and_eq_true, decide_eq_true_eq]
  exact .inl (.inr h)

theorem Names.isDigit_of_mem_padded {width n : Nat} {c : Char}
    (h : c ∈ (Decimal.padded width n).toList) : c.isDigit := by
  rw [toList_padded, List.mem_append] at h
  rcases h with h | h
  · rw [(List.mem_replicate.1 h).2]
    rfl
  · exact Nat.isDigit_of_mem_toDigits (b := 10) (by decide) (by decide) h

namespace Roster

/-! ### Names -/

/-- What a number in a name counts. -/
inductive Mark where
  | staff
  | day
  | shift
  | next
  | length
deriving DecidableEq

/-- The letter before the number. -/
def Mark.letter : Mark → Char
  | staff => 'i'
  | day => 'd'
  | shift => 't'
  | next => 'r'
  | length => 's'

theorem Mark.letter_injective : Function.Injective Mark.letter := by
  intro a b h
  cases a <;> cases b <;> first | rfl | exact absurd h (by decide)

/-- What a constraint is named by. -/
structure Label where
  /-- The number of the rule or wish. -/
  rule : Nat
  /-- What it is about. -/
  parts : List (Mark × Nat)
deriving DecidableEq

/-- The end of a name. -/
def numbered : List (Mark × Nat) → List Char
  | [] => []
  | (mark, n) :: rest => '_' :: mark.letter :: ((two n).toList ++ numbered rest)

/-- The name of a constraint. -/
def Label.name (l : Label) : String :=
  String.ofList ('C' :: ((two l.rule).toList ++ numbered l.parts))

/-- What comes before and after the first underscore. -/
theorem split_first {u v r s : List Char} (hu : '_' ∉ u) (hv : '_' ∉ v)
    (h : u ++ '_' :: r = v ++ '_' :: s) : u = v ∧ r = s := by
  induction u generalizing v with
  | nil =>
    cases v with
    | nil => exact ⟨rfl, (List.cons.inj h).2⟩
    | cons b v => exact absurd ((List.cons.inj h).1 ▸ List.mem_cons_self) hv
  | cons a u ih =>
    cases v with
    | nil => exact absurd ((List.cons.inj h).1 ▸ List.mem_cons_self) hu
    | cons b v =>
      obtain ⟨rfl, htail⟩ := List.cons.inj h
      have hu' := List.not_mem_of_not_mem_cons hu
      have hv' := List.not_mem_of_not_mem_cons hv
      obtain ⟨rfl, rfl⟩ := ih hu' hv' htail
      exact ⟨rfl, rfl⟩

/-- The parts of a numbered text can be read off it. -/
theorem numbered_injective {u v : List Char} {ps qs : List (Mark × Nat)} (hu : '_' ∉ u)
    (hv : '_' ∉ v) (h : u ++ numbered ps = v ++ numbered qs) : u = v ∧ ps = qs := by
  -- The number of a part stands before the parts that follow it, so what stands before is general.
  induction ps generalizing u v qs with
  | nil =>
    cases qs with
    | nil => exact ⟨by simpa [numbered] using h, rfl⟩
    | cons q qs =>
      -- A further part would bring in an underscore, and the other side has none.
      rw [numbered, List.append_nil] at h
      exact absurd (by rw [h]; simp [numbered]) hu
  | cons p ps ih =>
    cases qs with
    | nil =>
      rw [numbered.eq_def [], List.append_nil] at h
      exact absurd (by rw [← h]; simp [numbered]) hv
    | cons q qs =>
      obtain ⟨rfl, hrest⟩ := split_first hu hv h
      obtain ⟨hletter, htail⟩ := List.cons.inj hrest
      obtain ⟨hn, rfl⟩ := ih (Names.underscore_notMem_padded 2 p.2)
        (Names.underscore_notMem_padded 2 q.2) htail
      have hmark := Mark.letter_injective hletter
      have hnumber := Names.padded_injective (String.toList_inj.1 hn)
      exact ⟨rfl, by rw [Prod.ext hmark hnumber]⟩

/-- **Names.** Constraints with different labels have different names. -/
theorem Label.name_injective : Function.Injective Label.name := by
  rintro ⟨j, ps⟩ ⟨k, qs⟩ h
  obtain ⟨-, htail⟩ := List.cons.inj (String.ofList_injective h)
  obtain ⟨hrule, rfl⟩ := numbered_injective (Names.underscore_notMem_padded 2 j)
    (Names.underscore_notMem_padded 2 k) htail
  rw [Names.padded_injective (String.toList_inj.1 hrule)]

theorem all_isWordChar_numbered (ps : List (Mark × Nat)) :
    (numbered ps).all Identifier.isWordChar = true := by
  induction ps with
  | nil => rfl
  | cons p ps ih =>
    obtain ⟨mark, n⟩ := p
    rw [numbered, List.all_cons, List.all_cons, List.all_append, ih]
    have hdigits : (two n).toList.all Identifier.isWordChar = true :=
      List.all_eq_true.2 fun c hc =>
        Identifier.isWordChar_of_isDigit (Names.isDigit_of_mem_padded hc)
    rw [hdigits]
    cases mark <;> rfl

/-- Labels are valid names. -/
theorem Label.isValid_name (l : Label) : Identifier.isValid l.name := by
  have hdigits : (two l.rule).toList.all Identifier.isWordChar = true :=
    List.all_eq_true.2 fun c hc =>
      Identifier.isWordChar_of_isDigit (Names.isDigit_of_mem_padded hc)
  rw [Identifier.isValid, name, String.toList_ofList, Identifier.isValidList, List.all_append,
    hdigits, all_isWordChar_numbered]
  rfl

/-- The variables of a roster have valid names. -/
theorem isValid_variableName (staff day : Nat) : Identifier.isValid (variableName staff day) := by
  have hname : (variableName staff day).toList =
      'x' :: numbered [(.staff, staff), (.day, day)] := by
    simp [variableName, numbered, Mark.letter]
  rw [Identifier.isValid, hname, Identifier.isValidList, all_isWordChar_numbered]
  rfl

/-! ### Labels of the rules and wishes -/

namespace Label

/-- A shift of a member on a day, and one that must not follow. -/
def succession (staff day shift next : Nat) : Label :=
  ⟨2, [(.staff, staff), (.day, day), (.shift, shift), (.next, next)]⟩

/-- A shift of a member. -/
def limit (staff shift : Nat) : Label := ⟨3, [(.staff, staff), (.shift, shift)]⟩

/-- The first day of a window of a member. -/
def window (staff day : Nat) : Label := ⟨5, [(.staff, staff), (.day, day)]⟩

/-- The length of a stretch of a member, and the day before it. -/
def stretch (staff length day : Nat) : Label :=
  ⟨6, [(.staff, staff), (.length, length), (.day, day)]⟩

/-- A day off of a member. -/
def dayOff (staff day : Nat) : Label := ⟨9, [(.staff, staff), (.day, day)]⟩

/-- A wish for a member, a day and a shift. -/
def wish (rule : Nat) (q : Request) : Label :=
  ⟨rule, [(.staff, q.staff), (.day, q.day), (.shift, q.shift)]⟩

/-- A shift of a day. -/
def cover (rule day shift : Nat) : Label := ⟨rule, [(.day, day), (.shift, shift)]⟩

/-- The number after a mark; zero if there is none. -/
def number (l : Label) (mark : Mark) : Nat := (l.parts.lookup mark).getD 0

/-- A text with the digits of a rule and the text of its parts is a label. -/
theorem text_eq_name {text : String} (rule : Nat) (digits : List Char) {parts : List (Mark × Nat)}
    (hrule : (two rule).toList = digits)
    (h : text.toList = 'C' :: (digits ++ numbered parts)) : text = Label.name ⟨rule, parts⟩ := by
  apply String.toList_inj.1
  rw [name, String.toList_ofList, hrule, h]

theorem text_succession (staff day shift next : Nat) :
    "C02_i" ++ two staff ++ "_d" ++ two day ++ "_t" ++ two shift ++ "_r" ++ two next =
      (succession staff day shift next).name := by
  apply text_eq_name 2 ['0', '2'] (by decide)
  simp [numbered, Mark.letter]

theorem text_limit (staff shift : Nat) :
    "C03_i" ++ two staff ++ "_t" ++ two shift = (limit staff shift).name := by
  apply text_eq_name 3 ['0', '3'] (by decide)
  simp [numbered, Mark.letter]

theorem text_window (staff day : Nat) :
    "C05_i" ++ two staff ++ "_d" ++ two day = (window staff day).name := by
  apply text_eq_name 5 ['0', '5'] (by decide)
  simp [numbered, Mark.letter]

theorem text_stretch (staff length day : Nat) :
    "C06_i" ++ two staff ++ "_s" ++ two length ++ "_d" ++ two day =
      (stretch staff length day).name := by
  apply text_eq_name 6 ['0', '6'] (by decide)
  simp [numbered, Mark.letter]

theorem text_dayOff (staff day : Nat) :
    "C09_i" ++ two staff ++ "_d" ++ two day = (dayOff staff day).name := by
  apply text_eq_name 9 ['0', '9'] (by decide)
  simp [numbered, Mark.letter]

theorem text_wish {kind : String} {rule : Nat} (hkind : kind = "C" ++ two rule) (q : Request) :
    kind ++ "_i" ++ two q.staff ++ "_d" ++ two q.day ++ "_t" ++ two q.shift =
      (wish rule q).name := by
  apply text_eq_name rule _ rfl
  simp [hkind, numbered, Mark.letter]

theorem text_cover {kind : String} {rule : Nat} (hkind : kind = "C" ++ two rule)
    (day shift : Nat) :
    kind ++ "_d" ++ two day ++ "_t" ++ two shift = (cover rule day shift).name := by
  apply text_eq_name rule _ rfl
  simp [hkind, numbered, Mark.letter]

end Label

/-- The labels of the forbidden successions of a member. -/
def successionLabels (r : Roster) (staff : Nat) : List Label :=
  (List.range (r.params.days - 1)).flatMap fun day =>
    r.forbidden.zipIdx.flatMap fun e => e.1.map (Label.succession staff day e.2)

/-- The labels of the limits of a member. -/
def limitLabels (p : Params) (staff : Nat) : List Label :=
  (List.range' 1 p.shifts).map (Label.limit staff)

/-- The labels of the windows of a member. -/
def windowLabels (p : Params) (staff : Nat) : List Label :=
  (List.range (p.days + 1 - (p.maxConsecutive + 1))).map (Label.window staff)

/-- The labels of the stretches of a member. -/
def stretchLabels (p : Params) (staff : Nat) : List Label :=
  (List.range' 1 (p.minConsecutive - 1)).flatMap fun length =>
    (List.range (p.days - (length + 1))).map (Label.stretch staff length)

/-- The labels of the fixed days off of a member. -/
def dayOffLabels (r : Roster) (staff : Nat) : List Label :=
  (r.daysOff.getD staff []).map (Label.dayOff staff)

/-- The labels of the rules for a member. -/
def ruleLabels (r : Roster) (staff : Nat) : List Label :=
  successionLabels r staff ++ limitLabels r.params staff ++ windowLabels r.params staff ++
    stretchLabels r.params staff ++ dayOffLabels r staff

/-- The labels of the bounds of a day. -/
def coverLabels (p : Params) (day : Nat) : List Label :=
  (List.range' 1 p.shifts).flatMap fun shift => [Label.cover 13 day shift, Label.cover 14 day shift]

/-- The labels of all constraints of a roster. -/
def labels (r : Roster) : List Label :=
  (List.range r.params.staff).flatMap (ruleLabels r) ++ r.onRequests.map (Label.wish 11) ++
    r.offRequests.map (Label.wish 12) ++ r.cover.zipIdx.flatMap fun e => coverLabels r.params e.2

/-! ### Labels are told apart -/

/-- Parts are told apart by a key. -/
theorem nodup_flatMap_of_key {α β κ : Type} {as : List α} {f : α → List β} (key : β → κ)
    {keyOf : α → κ} (has : (as.map keyOf).Nodup) (hf : ∀ a ∈ as, (f a).Nodup)
    (hkey : ∀ a ∈ as, ∀ b ∈ f a, key b = keyOf a) : (as.flatMap f).Nodup := by
  rw [List.nodup_flatMap]
  refine ⟨hf, (List.pairwise_map.1 has).imp_of_mem fun ha hb hne => ?_⟩
  intro b hba hbb
  exact hne ((hkey _ ha b hba).symm.trans (hkey _ hb b hbb))

/-- The labels are different, and the numbers of their rules are between the bounds. -/
structure Distinct (lo hi : Nat) (ls : List Label) : Prop where
  /-- The labels are different. -/
  nodup : ls.Nodup
  /-- Their rules are between the bounds. -/
  rules : ∀ l ∈ ls, lo ≤ l.rule ∧ l.rule < hi

/-- Lists of labels for different rules have no label in common. -/
theorem Distinct.append {lo mid hi : Nat} {ls₁ ls₂ : List Label} (h₁ : Distinct lo mid ls₁)
    (h₂ : Distinct mid hi ls₂) (hlo : lo ≤ mid) (hhi : mid ≤ hi) : Distinct lo hi (ls₁ ++ ls₂) := by
  constructor
  · refine h₁.nodup.append h₂.nodup fun l hl₁ hl₂ => ?_
    have := (h₁.rules l hl₁).2
    have := (h₂.rules l hl₂).1
    omega
  · refine List.forall_mem_append.2 ⟨fun l hl => ?_, fun l hl => ?_⟩
    · obtain ⟨hge, hlt⟩ := h₁.rules l hl
      exact ⟨hge, by omega⟩
    · obtain ⟨hge, hlt⟩ := h₂.rules l hl
      exact ⟨by omega, hlt⟩

/-- Different labels of one rule are distinct. -/
theorem distinct_of_rule {rule hi : Nat} {ls : List Label} (hnodup : ls.Nodup)
    (hrule : ∀ l ∈ ls, l.rule = rule) (hhi : rule < hi) : Distinct rule hi ls := by
  refine ⟨hnodup, fun l hl => ?_⟩
  rw [hrule l hl]
  exact ⟨Nat.le_refl rule, hhi⟩

section Distinct

variable {r : Roster} {p : Params}

theorem nodup_zipIdx_snd {α : Type} (as : List α) : (as.zipIdx.map fun e => e.2).Nodup := by
  have hsnd : as.zipIdx.map (fun e => e.2) = List.range' 0 as.length := List.zipIdx_map_snd 0 as
  rw [hsnd]
  exact List.nodup_range'

theorem nodup_range_id (n : Nat) : ((List.range n).map fun a => a).Nodup := by
  rw [List.map_id']
  exact List.nodup_range

theorem nodup_range'_id (first n : Nat) : ((List.range' first n).map fun a => a).Nodup := by
  rw [List.map_id']
  exact List.nodup_range'

/-- A succession has a label of its own, as no shift is forbidden twice. -/
theorem distinct_successionLabels (hr : r.WellFormed) (staff : Nat) :
    Distinct 2 3 (successionLabels r staff) := by
  apply distinct_of_rule
  · apply nodup_flatMap_of_key (·.number .day) (nodup_range_id _)
    · intro day _
      apply nodup_flatMap_of_key (·.number .shift) (nodup_zipIdx_snd _)
      · intro e he
        apply (hr.forbidden e he).2.1.map
        intro a b h
        simpa [Label.succession] using h
      · intro e _
        exact List.forall_mem_map.2 fun _ _ => rfl
    · intro day _
      simp only [List.forall_mem_flatMap, List.forall_mem_map]
      exact fun _ _ _ _ => rfl
  · simp only [successionLabels, List.forall_mem_flatMap, List.forall_mem_map]
    exact fun _ _ _ _ _ _ => rfl
  · decide

theorem distinct_limitLabels (p : Params) (staff : Nat) : Distinct 3 5 (limitLabels p staff) := by
  apply distinct_of_rule
  · apply (List.nodup_range').map
    intro a b h
    simpa [Label.limit] using h
  · exact List.forall_mem_map.2 fun _ _ => rfl
  · decide

theorem distinct_windowLabels (p : Params) (staff : Nat) : Distinct 5 6 (windowLabels p staff) := by
  apply distinct_of_rule
  · apply List.nodup_range.map
    intro a b h
    simpa [Label.window] using h
  · exact List.forall_mem_map.2 fun _ _ => rfl
  · decide

theorem distinct_stretchLabels (p : Params) (staff : Nat) :
    Distinct 6 9 (stretchLabels p staff) := by
  apply distinct_of_rule
  · apply nodup_flatMap_of_key (·.number .length) (nodup_range'_id 1 _)
    · intro length _
      apply List.nodup_range.map
      intro a b h
      simpa [Label.stretch] using h
    · intro length _
      exact List.forall_mem_map.2 fun _ _ => rfl
  · simp only [stretchLabels, List.forall_mem_flatMap, List.forall_mem_map]
    exact fun _ _ _ _ => rfl
  · decide

/-- So has a day off, as no day is off twice. -/
theorem distinct_dayOffLabels (hr : r.WellFormed) {staff : Nat} (hstaff : staff < r.params.staff) :
    Distinct 9 11 (dayOffLabels r staff) := by
  have hrow : r.daysOff.getD staff [] ∈ r.daysOff := by
    rw [← hr.restful] at hstaff
    rw [List.getD_eq_getElem?_getD, List.getElem?_eq_getElem hstaff]
    exact List.getElem_mem hstaff
  apply distinct_of_rule
  · apply (hr.daysOff _ hrow).1.map
    intro a b h
    simpa [Label.dayOff] using h
  · exact List.forall_mem_map.2 fun _ _ => rfl
  · decide

/-- The labels of the rules for a member are told apart by the rules. -/
theorem distinct_ruleLabels (hr : r.WellFormed) {staff : Nat} (hstaff : staff < r.params.staff) :
    Distinct 2 11 (ruleLabels r staff) := by
  have h₃ := (distinct_successionLabels hr staff).append (distinct_limitLabels r.params staff)
    (by decide) (by decide)
  have h₅ := h₃.append (distinct_windowLabels r.params staff) (by decide) (by decide)
  have h₆ := h₅.append (distinct_stretchLabels r.params staff) (by decide) (by decide)
  exact h₆.append (distinct_dayOffLabels hr hstaff) (by decide) (by decide)

/-- The labels of a member carry the member's number. -/
theorem number_of_mem_ruleLabels {staff : Nat} {l : Label} (hl : l ∈ ruleLabels r staff) :
    l.number .staff = staff := by
  revert l
  simp only [ruleLabels, successionLabels, limitLabels, windowLabels, stretchLabels, dayOffLabels,
    List.forall_mem_append, List.forall_mem_flatMap, List.forall_mem_map]
  exact ⟨⟨⟨⟨fun _ _ _ _ _ _ => rfl, fun _ _ => rfl⟩, fun _ _ => rfl⟩, fun _ _ _ _ => rfl⟩,
    fun _ _ => rfl⟩

/-- The labels of all members are different. -/
theorem distinct_members (hr : r.WellFormed) :
    Distinct 2 11 ((List.range r.params.staff).flatMap (ruleLabels r)) := by
  constructor
  · apply nodup_flatMap_of_key (·.number .staff) (nodup_range_id _)
    · intro staff hstaff
      exact (distinct_ruleLabels hr (List.mem_range.1 hstaff)).nodup
    · intro staff _ l hl
      exact number_of_mem_ruleLabels hl
  · intro l hl
    obtain ⟨staff, hstaff, hl⟩ := List.mem_flatMap.1 hl
    exact (distinct_ruleLabels hr (List.mem_range.1 hstaff)).rules l hl

/-- Wishes have labels of their own, as no two are for the same shift of a day. -/
theorem distinct_wishLabels {rule : Nat} {qs : List Request}
    (hqs : (qs.map Request.subject).Nodup) :
    Distinct rule (rule + 1) (qs.map (Label.wish rule)) := by
  apply distinct_of_rule
  · -- The numbers of a label give the subject of the wish back.
    apply List.Nodup.of_map fun l : Label => (l.number .staff, l.number .day, l.number .shift)
    rw [List.map_map]
    exact hqs
  · exact List.forall_mem_map.2 fun _ _ => rfl
  · exact Nat.lt_succ_self rule

theorem distinct_coverLabels (p : Params) (day : Nat) : Distinct 13 15 (coverLabels p day) := by
  constructor
  · apply nodup_flatMap_of_key (·.number .shift) (nodup_range'_id 1 _)
    · intro shift _
      simp [Label.cover]
    · intro shift _
      exact List.forall_mem_cons.2 ⟨rfl, List.forall_mem_singleton.2 rfl⟩
  · simp only [coverLabels, List.forall_mem_flatMap]
    intro shift _
    simp [Label.cover]

/-- The bounds on cover have labels of their own. -/
theorem distinct_covers (r : Roster) :
    Distinct 13 15 (r.cover.zipIdx.flatMap fun e => coverLabels r.params e.2) := by
  constructor
  · apply nodup_flatMap_of_key (·.number .day) (nodup_zipIdx_snd _)
    · intro e _
      exact (distinct_coverLabels r.params e.2).nodup
    · intro e _
      simp only [coverLabels, List.forall_mem_flatMap]
      intro shift _
      exact List.forall_mem_cons.2 ⟨rfl, List.forall_mem_singleton.2 rfl⟩
  · intro l hl
    obtain ⟨e, -, hl⟩ := List.mem_flatMap.1 hl
    exact (distinct_coverLabels r.params e.2).rules l hl

/-- **Labels.** No two constraints of a well-formed roster have the same label. -/
theorem WellFormed.nodup_labels (hr : r.WellFormed) : (labels r).Nodup := by
  have h₁₁ := (distinct_members hr).append (distinct_wishLabels hr.onRequestsNodup) (by decide)
    (by decide)
  have h₁₂ := h₁₁.append (distinct_wishLabels hr.offRequestsNodup) (by decide) (by decide)
  exact (h₁₂.append (distinct_covers r) (by decide) (by decide)).nodup

end Distinct

end Roster

end WeightedCsp

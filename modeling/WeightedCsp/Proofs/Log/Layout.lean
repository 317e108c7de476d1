import Mathlib.Data.List.Induction
import Mathlib.Data.List.Perm.Basic
import Mathlib.Data.String.Basic
import WeightedCsp.Proofs.Log.Lines

/-!
# The layout of a log

`Layout` says that the items of a log stand in their order among other lines, and what they say;
`Lacks` says that an item is absent after those before it.  The reader accepts exactly the texts
with the layout and gives what their items say, and it misses exactly the items that are lacking
(`parse_layout`).

The searches work on one sequence of lines, so each of them is described by what it finds together
with the lines that it leaves (`First`, `Run`).
-/

namespace WeightedCsp

/-! ### Maps of the last entries -/

namespace NameMap

variable {α : Type}

/-- The entries are in ascending order of names. -/
def Ordered (m : NameMap α) : Prop := m.Pairwise fun e f => e.1 < f.1

/-- The last entry of a name. -/
def Last (entries : List (String × α)) (e : String × α) : Prop :=
  ∃ before after, entries = before ++ e :: after ∧ ∀ later ∈ after, later.1 ≠ e.1

/-- What is inserted replaces what was there for its name. -/
theorem mem_insert_iff {m : NameMap α} (hm : m.Ordered) {name : String} {v : α} {e : String × α} :
    e ∈ insert name v m ↔ e = (name, v) ∨ e ∈ m ∧ e.1 ≠ name := by
  induction m with
  | nil => simp [insert]
  | cons d rest ih =>
    obtain ⟨n, w⟩ := d
    obtain ⟨hd, hrest⟩ := List.pairwise_cons.1 hm
    unfold insert
    split_ifs with heq hlt
    -- The value is replaced, entered before greater names, or handed on to them.
    · subst heq
      have habove : e ∈ rest → e.1 ≠ name := fun he => (hd e he).ne'
      simp only [List.mem_cons]
      grind
    · have habove : e ∈ (n, w) :: rest → e.1 ≠ name := by
        rintro (_ | ⟨_, he⟩)
        · exact hlt.ne'
        · exact (lt_trans hlt (hd e he)).ne'
      simp only [List.mem_cons] at habove ⊢
      grind
    · rw [List.mem_cons, List.mem_cons, ih hrest]
      grind

theorem Ordered.insert {m : NameMap α} (hm : m.Ordered) (name : String) (v : α) :
    (insert name v m).Ordered := by
  induction m with
  | nil => simp [Ordered, NameMap.insert]
  | cons d rest ih =>
    obtain ⟨n, w⟩ := d
    obtain ⟨hd, hrest⟩ := List.pairwise_cons.1 hm
    unfold NameMap.insert
    split_ifs with heq hlt
    · subst heq
      exact List.pairwise_cons.2 ⟨hd, hrest⟩
    · refine List.pairwise_cons.2 ⟨?_, hm⟩
      rintro e (_ | ⟨_, he⟩)
      · exact hlt
      · exact lt_trans hlt (hd e he)
    · refine List.pairwise_cons.2 ⟨fun e he => ?_, ih hrest⟩
      rcases (mem_insert_iff hrest).1 he with rfl | ⟨he, -⟩
      · exact lt_of_le_of_ne (not_lt.1 hlt) (Ne.symm heq)
      · exact hd e he

/-- The last entry for a name is the new one, or one before it for another name. -/
theorem last_concat {entries : List (String × α)} {d e : String × α} :
    Last (entries ++ [d]) e ↔ e = d ∨ Last entries e ∧ e.1 ≠ d.1 := by
  constructor
  · rintro ⟨before, after, hentries, hlater⟩
    rcases List.eq_nil_or_concat after with rfl | ⟨after, f, rfl⟩
    · exact .inl (List.append_inj_right' hentries rfl |> List.singleton_inj.1).symm
    · rw [List.concat_eq_append, ← List.cons_append, ← List.append_assoc] at hentries
      obtain ⟨rfl, hf⟩ := List.append_inj' hentries rfl
      obtain rfl := List.singleton_inj.1 hf
      exact .inr ⟨⟨before, after, rfl, fun later h => hlater later (by simp [h])⟩,
        (hlater d (by simp)).symm⟩
  · rintro (rfl | ⟨⟨before, after, rfl, hlater⟩, hne⟩)
    · exact ⟨entries, [], rfl, by simp⟩
    · refine ⟨before, after ++ [d], by simp, fun later h => ?_⟩
      rcases List.mem_append.1 h with h | h
      · exact hlater later h
      · rw [List.mem_singleton.1 h]
        exact hne.symm

/-- The map has the last entry of each name, and nothing else. -/
def Keeps (m : NameMap α) (entries : List (String × α)) : Prop :=
  m.Ordered ∧ ∀ e, e ∈ m ↔ Last entries e

/-- A map keeps the last entry for each name. -/
theorem keeps_ofList (entries : List (String × α)) : Keeps (ofList entries) entries := by
  -- Entries are inserted from the front, so the induction takes them off at the end.
  induction entries using List.reverseRecOn with
  | nil => exact ⟨List.Pairwise.nil, fun e => by simp [ofList, Last]⟩
  | append_singleton entries d ih =>
    obtain ⟨hordered, hmem⟩ := ih
    have hfold : ofList (entries ++ [d]) = (ofList entries).insert d.1 d.2 := by simp [ofList]
    rw [hfold]
    refine ⟨hordered.insert d.1 d.2, fun e => ?_⟩
    rw [mem_insert_iff hordered, last_concat, hmem]

/-- The last entries make up one map only. -/
theorem keeps_iff {m : NameMap α} {entries : List (String × α)} :
    Keeps m entries ↔ m = ofList entries := by
  constructor
  · rintro ⟨hordered, hmem⟩
    obtain ⟨hordered', hmem'⟩ := keeps_ofList entries
    have hperm : m.Perm (ofList entries) := by
      -- Different names have different entries, so membership settles the map up to order.
      refine (List.perm_ext_iff_of_nodup ?_ ?_).2 fun e => (hmem e).trans (hmem' e).symm
      · exact hordered.imp fun h heq => absurd (heq ▸ h) (lt_irrefl _)
      · exact hordered'.imp fun h heq => absurd (heq ▸ h) (lt_irrefl _)
    exact hperm.eq_of_pairwise (fun e f _ _ h h' => absurd h (lt_asymm h')) hordered hordered'
  · rintro rfl
    exact keeps_ofList entries

end NameMap

namespace SolverLog

variable {α : Type} {lines rest : List (List Char)}

/-! ### Searches -/

section Search

variable {kind : List Char → α → Prop} {a : α}

/-- There is no line of a kind. -/
def Absent (kind : List Char → α → Prop) (lines : List (List Char)) : Prop :=
  ∀ line ∈ lines, ∀ a, ¬kind (Text.trimEnd line) a

/-- The first line of a kind says `a`, and `rest` follows it. -/
def First (kind : List Char → α → Prop) (lines : List (List Char)) (a : α)
    (rest : List (List Char)) : Prop :=
  ∃ before line, lines = before ++ line :: rest ∧ kind (Text.trimEnd line) a ∧ Absent kind before

theorem first_or_absent (kind : List Char → α → Prop) (lines : List (List Char)) :
    (∃ a rest, First kind lines a rest) ∨ Absent kind lines := by
  induction lines with
  | nil => exact .inr fun line hline => absurd hline List.not_mem_nil
  | cons line lines ih =>
    by_cases hline : ∃ a, kind (Text.trimEnd line) a
    · obtain ⟨a, ha⟩ := hline
      exact .inl ⟨a, lines, [], line, rfl, ha, by simp [Absent]⟩
    · have hnone : ∀ b, ¬kind (Text.trimEnd line) b := not_exists.1 hline
      rcases ih with ⟨a, rest, before, first, rfl, ha, hbefore⟩ | habsent
      · exact .inl ⟨a, rest, line :: before, first, rfl, ha,
          List.forall_mem_cons.2 ⟨hnone, hbefore⟩⟩
      · exact .inr (List.forall_mem_cons.2 ⟨hnone, habsent⟩)

variable {kind? : List Char → Option α} {item : String}

/-- A line is passed over if it is not of the kind. -/
theorem findLine_cons (line : List Char) (raws : List RawLine) :
    findLine kind? item (utf8 line :: raws) = match kind? (Text.trimEnd line) with
      | some a => .ok (a, raws)
      | none => findLine kind? item raws := by
  rw [findLine, lineText_utf8]
  rfl

/-- Lines of another kind are skipped. -/
theorem findLine_append (hkind : ∀ cs a, kind? cs = some a ↔ kind cs a)
    {before : List (List Char)} (h : Absent kind before) (raws : List RawLine) :
    findLine kind? item (before.map utf8 ++ raws) = findLine kind? item raws := by
  induction before with
  | nil => rfl
  | cons line before ih =>
    obtain ⟨hline, hbefore⟩ := List.forall_mem_cons.1 h
    have hnone : kind? (Text.trimEnd line) = none :=
      Option.eq_none_iff_forall_ne_some.2 fun a ha => hline a ((hkind _ a).1 ha)
    rw [List.map_cons, List.cons_append, findLine_cons, hnone]
    exact ih hbefore

/-- The first line of a kind is found. -/
theorem First.findLine (h : First kind lines a rest)
    (hkind : ∀ cs a, kind? cs = some a ↔ kind cs a) (item : String) :
    findLine kind? item (lines.map utf8) = .ok (a, rest.map utf8) := by
  obtain ⟨before, line, rfl, hline, hbefore⟩ := h
  rw [List.map_append, findLine_append hkind hbefore, List.map_cons, findLine_cons,
    (hkind _ a).2 hline]

/-- If there is none, the item is missing. -/
theorem Absent.findLine (h : Absent kind lines)
    (hkind : ∀ cs a, kind? cs = some a ↔ kind cs a) (item : String) :
    findLine kind? item (lines.map utf8) = .error (.missing item) := by
  rw [← List.append_nil (lines.map utf8), findLine_append hkind h]
  rfl

end Search

/-! ### Sections -/

section Entries

variable {means : String → α → Prop} {values : List (String × α)}

/-- The line is an entry, and its label means the value. -/
def Entry (means : String → α → Prop) (line : List Char) (e : String × α) : Prop :=
  ∃ label, IsEntry (Text.trimEnd line) (e.1, label) ∧ means label e.2

/-- The lines begin with entries, as many as there are, and `rest` follows them. -/
def Run (means : String → α → Prop) (lines : List (List Char)) (values : List (String × α))
    (rest : List (List Char)) : Prop :=
  ∃ run, lines = run ++ rest ∧ List.Forall₂ (Entry means) run values ∧
    ∀ line ∈ rest.head?, ∀ e, ¬IsEntry (Text.trimEnd line) e

variable {value : String → String → Except LogError α}

/-- The value of an entry is what its label means. -/
def Gives (value : String → String → Except LogError α) (means : String → α → Prop) : Prop :=
  ∀ name label v, IsLabel label.toList → (value name label = .ok v ↔ means label v)

theorem gives_label : Gives (fun _ label => .ok label) Eq := fun name label v _ => by simp

theorem gives_amount : Gives amount IsAmount := fun _ _ _ hlabel => amount_eq_ok_iff hlabel

/-- A section goes on with an entry, and it ends with any other line. -/
theorem readEntries_cons (line : List Char) (raws : List RawLine) :
    readEntries value (utf8 line :: raws) = match entryLine? (Text.trimEnd line) with
      | none => .ok ([], some (Text.trimEnd line), raws)
      | some (name, label) => do
        let v ← value name label
        let (entries, trailer, raws) ← readEntries value raws
        return ((name, v) :: entries, trailer, raws) := by
  rw [readEntries, lineText_utf8]
  rfl

/-- A run of entries is read up to the line that ends it. -/
theorem Run.readEntries (h : Run means lines values rest) (hvalue : Gives value means) :
    readEntries value (lines.map utf8) =
      .ok (values, rest.head?.map Text.trimEnd, rest.tail.map utf8) := by
  obtain ⟨run, rfl, hrun, hrest⟩ := h
  induction hrun with
  | nil =>
    -- The run is over, and the line after it is given back with its text.
    cases rest with
    | nil => rfl
    | cons line rest =>
      have hnone : entryLine? (Text.trimEnd line) = none :=
        Option.eq_none_iff_forall_ne_some.2 fun e he =>
          hrest line rfl e (entryLine?_eq_some_iff.1 he)
      rw [List.nil_append, List.map_cons, readEntries_cons, hnone]
      rfl
  | cons hentry hrun ih =>
    obtain ⟨label, hline, hmeans⟩ := hentry
    rw [List.cons_append, List.map_cons, readEntries_cons, entryLine?_eq_some_iff.2 hline]
    simp only [(hvalue _ _ _ hline.2.1).2 hmeans, ih]
    rfl

/-- The entries at the beginning have values, or one of them is refused. -/
theorem run_or_error (hvalue : Gives value means) (lines : List (List Char)) :
    (∃ values rest, Run means lines values rest) ∨
      ∃ name label e, value name label = .error e ∧
        SolverLog.readEntries value (lines.map utf8) = .error e := by
  induction lines with
  | nil => exact .inl ⟨[], [], [], rfl, .nil, by simp⟩
  | cons line lines ih =>
    rw [List.map_cons, readEntries_cons]
    cases hentry : entryLine? (Text.trimEnd line) with
    | none =>
      -- A line that is no entry ends the run.
      refine .inl ⟨[], line :: lines, [], rfl, .nil, ?_⟩
      rintro _ ⟨⟩ e he
      rw [entryLine?_eq_some_iff.2 he] at hentry
      cases hentry
    | some e =>
      obtain ⟨name, label⟩ := e
      have hline := entryLine?_eq_some_iff.1 hentry
      cases hv : value name label with
      | error e => exact .inr ⟨name, label, e, hv, by simp only [hv]; rfl⟩
      | ok v =>
        rcases ih with ⟨values, rest, run, rfl, hrun, hrest⟩ | ⟨n, l, e, he, herror⟩
        · have hfirst : Entry means line (name, v) := ⟨label, hline, (hvalue _ _ _ hline.2.1).1 hv⟩
          exact .inl ⟨(name, v) :: values, rest, line :: run, rfl, .cons hfirst hrun, hrest⟩
        · exact .inr ⟨n, l, e, he, by simp only [hv, herror]; rfl⟩

end Entries

/-- Labels stand for themselves. -/
theorem exists_run (lines : List (List Char)) : ∃ values rest, Run Eq lines values rest := by
  rcases run_or_error gives_label lines with hrun | ⟨name, label, e, he, -⟩
  · exact hrun
  · cases he

/-! ### Readers in sequence -/

section Sequence

variable {β : Type}

theorem ok_bind (a : α) (f : α → Except LogError β) : (Except.ok a >>= f) = f a := rfl

theorem error_bind (e : LogError) (f : α → Except LogError β) :
    ((Except.error e : Except LogError α) >>= f) = .error e := rfl

/-- The line that ends a section is taken with it.  When it is the heading that is looked for next,
nothing is lost. -/
theorem heading_bind {text item : String} (f : List RawLine → Except LogError β) :
    (if rest.head?.map Text.trimEnd = some text.toList then pure (rest.tail.map utf8) >>= f
      else do
        let (_, raws) ← findLine (heading? text) item (rest.tail.map utf8)
        pure raws >>= f) =
      findLine (heading? text) item (rest.map utf8) >>= fun r => f r.2 := by
  cases rest with
  | nil => rfl
  | cons line rest =>
    rw [List.map_cons, findLine_cons]
    by_cases h : Text.trimEnd line = text.toList
    · have hsome : heading? text (Text.trimEnd line) = some () := if_pos h
      rw [hsome, if_pos (by simpa using h)]
      rfl
    · have hnone : heading? text (Text.trimEnd line) = none := if_neg h
      rw [hnone, if_neg (by simpa using h), List.tail_cons]
      rfl

end Sequence

/-! ### Layouts -/

/-- What the items of a log say. -/
structure Items where
  /-- The penalties of the hard and of the soft constraints. -/
  penalties : Nat × Nat
  /-- The time until the best solution was found, and the time in total. -/
  times : Seconds × Seconds
  /-- The iteration that found the best solution, and the number of iterations. -/
  iterations : Nat × Nat
  /-- The entries of the best solution. -/
  solution : List (String × String)
  /-- The entries of the violated constraints. -/
  violated : List (String × Int)

/-- The items stand in their order, each searched for after the one before it. -/
inductive Layout (lines : List (List Char)) (items : Items) : Prop
  /-- Any lines may stand before an item that are not of its kind, and any after the last. -/
  | intro {lines₁ lines₂ lines₃ lines₄ lines₅ lines₆ lines₇ : List (List Char)}
      (penalties : First IsPenalty lines items.penalties lines₁)
      (times : First IsTime lines₁ items.times lines₂)
      (timely : items.times.1.Timely ∧ items.times.2.Timely)
      (iterations : First IsIteration lines₂ items.iterations lines₃)
      (best : First (IsHeading solutionHeading) lines₃ () lines₄)
      (solution : Run Eq lines₄ items.solution lines₅)
      (constraints : First (IsHeading violatedHeading) lines₅ () lines₆)
      (violated : Run IsAmount lines₆ items.violated lines₇)

/-- The log holds what the items say. -/
structure Items.Told (items : Items) (log : SolverLog) : Prop where
  /-- The penalties. -/
  penalties : (log.hardPenalty, log.softPenalty) = items.penalties
  /-- The time until the best solution was found. -/
  improved : milliseconds items.times.1 = .ok log.improvedMs
  /-- The time in total. -/
  total : milliseconds items.times.2 = .ok log.totalMs
  /-- The iteration counts. -/
  iterations : (log.improvedIteration, log.iterations) = items.iterations
  /-- The best solution. -/
  solution : log.solution.Keeps items.solution
  /-- The violated constraints. -/
  violated : log.violated.Keeps items.violated

/-- An item is absent, and those before it are there. -/
inductive Lacks (lines : List (List Char)) : String → Prop
  /-- There are no penalties. -/
  | penalties (h : Absent IsPenalty lines) : Lacks lines "penalty"
  /-- There are no times after the penalties. -/
  | times {p : Nat × Nat} {lines₁ : List (List Char)} (penalties : First IsPenalty lines p lines₁)
      (h : Absent IsTime lines₁) : Lacks lines "cpu time"
  /-- There are no iteration counts after the times. -/
  | iterations {p : Nat × Nat} {t : Seconds × Seconds} {lines₁ lines₂ : List (List Char)}
      (penalties : First IsPenalty lines p lines₁) (times : First IsTime lines₁ t lines₂)
      (timely : t.1.Timely ∧ t.2.Timely) (h : Absent IsIteration lines₂) : Lacks lines "iteration"
  /-- There is no best solution after the iteration counts. -/
  | best {p n : Nat × Nat} {t : Seconds × Seconds} {lines₁ lines₂ lines₃ : List (List Char)}
      (penalties : First IsPenalty lines p lines₁) (times : First IsTime lines₁ t lines₂)
      (timely : t.1.Timely ∧ t.2.Timely) (iterations : First IsIteration lines₂ n lines₃)
      (h : Absent (IsHeading solutionHeading) lines₃) : Lacks lines "best solution"
  /-- There are no violated constraints after the best solution. -/
  | constraints {p n : Nat × Nat} {t : Seconds × Seconds} {entries : List (String × String)}
      {lines₁ lines₂ lines₃ lines₄ lines₅ : List (List Char)}
      (penalties : First IsPenalty lines p lines₁) (times : First IsTime lines₁ t lines₂)
      (timely : t.1.Timely ∧ t.2.Timely) (iterations : First IsIteration lines₂ n lines₃)
      (best : First (IsHeading solutionHeading) lines₃ () lines₄)
      (solution : Run Eq lines₄ entries lines₅)
      (h : Absent (IsHeading violatedHeading) lines₅) : Lacks lines "violated constraints"

/-! ### Reading -/

/-- Reads what follows the times. -/
def readRest (penalties : Nat × Nat) (improvedMs totalMs : Nat) (raws : List RawLine) :
    Except LogError SolverLog := do
  let (counts, raws) ← findLine iterationLine? "iteration" raws
  let (_, raws) ← findLine (heading? solutionHeading) "best solution" raws
  let (solution, trailer, raws) ← readEntries (fun _ label => .ok label) raws
  let raws ←
    if trailer = some violatedHeading.toList then pure raws
    else do
      let (_, raws) ← findLine (heading? violatedHeading) "violated constraints" raws
      pure raws
  let (violated, _, _) ← readEntries amount raws
  return ⟨penalties.1, penalties.2, improvedMs, totalMs, counts.1, counts.2,
    NameMap.ofList solution, NameMap.ofList violated⟩

variable {p n : Nat × Nat} {t : Seconds × Seconds}
  {lines₁ lines₂ lines₃ lines₄ lines₅ : List (List Char)}

theorem ofLines_of_times (hpenalties : First IsPenalty lines p lines₁)
    (htimes : First IsTime lines₁ t lines₂) :
    ofLines (lines.map utf8) = (do
      let improvedMs ← milliseconds t.1
      let totalMs ← milliseconds t.2
      readRest p improvedMs totalMs (lines₂.map utf8)) := by
  simp only [ofLines, hpenalties.findLine penaltyLine?_eq_some_iff,
    htimes.findLine timeLine?_eq_some_iff, ok_bind]
  rfl

/-- Times that fit a clock become milliseconds. -/
theorem ofLines_of_timely (hpenalties : First IsPenalty lines p lines₁)
    (htimes : First IsTime lines₁ t lines₂) (htimely : t.1.Timely ∧ t.2.Timely) :
    ∃ improvedMs totalMs, milliseconds t.1 = .ok improvedMs ∧ milliseconds t.2 = .ok totalMs ∧
      ofLines (lines.map utf8) = readRest p improvedMs totalMs (lines₂.map utf8) := by
  obtain ⟨improvedMs, himproved⟩ := (exists_milliseconds_iff t.1).2 htimely.1
  obtain ⟨totalMs, htotal⟩ := (exists_milliseconds_iff t.2).2 htimely.2
  refine ⟨improvedMs, totalMs, himproved, htotal, ?_⟩
  rw [ofLines_of_times hpenalties htimes, himproved, htotal, ok_bind, ok_bind]

/-- Times that do not are reported. -/
theorem ofLines_of_not_timely (hpenalties : First IsPenalty lines p lines₁)
    (htimes : First IsTime lines₁ t lines₂) (htimely : ¬(t.1.Timely ∧ t.2.Timely)) :
    ∃ text, ofLines (lines.map utf8) = .error (.invalidNumber text) := by
  rw [ofLines_of_times hpenalties htimes]
  cases himproved : milliseconds t.1 with
  | error e =>
    obtain ⟨text, rfl⟩ := milliseconds_error himproved
    exact ⟨text, rfl⟩
  | ok improvedMs =>
    cases htotal : milliseconds t.2 with
    | error e =>
      obtain ⟨text, rfl⟩ := milliseconds_error htotal
      exact ⟨text, rfl⟩
    | ok totalMs =>
      exact absurd ⟨(exists_milliseconds_iff t.1).1 ⟨_, himproved⟩,
        (exists_milliseconds_iff t.2).1 ⟨_, htotal⟩⟩ htimely

theorem readRest_of_solution {improvedMs totalMs : Nat} {entries : List (String × String)}
    (hiterations : First IsIteration lines₂ n lines₃)
    (hbest : First (IsHeading solutionHeading) lines₃ () lines₄)
    (hsolution : Run Eq lines₄ entries lines₅) :
    readRest p improvedMs totalMs (lines₂.map utf8) = (do
      let r ← findLine (heading? violatedHeading) "violated constraints" (lines₅.map utf8)
      let (violated, _, _) ← readEntries amount r.2
      return ⟨p.1, p.2, improvedMs, totalMs, n.1, n.2, NameMap.ofList entries,
        NameMap.ofList violated⟩) := by
  simp only [readRest, hiterations.findLine iterationLine?_eq_some_iff,
    hbest.findLine (heading?_eq_some_iff _), hsolution.readEntries gives_label, ok_bind,
    heading_bind]

/-- **Texts with the layout** are read. -/
theorem Layout.ofLines {items : Items} (h : Layout lines items) :
    ∃ log, ofLines (lines.map utf8) = .ok log ∧ items.Told log := by
  obtain ⟨hpenalties, htimes, htimely, hiterations, hbest, hsolution, hconstraints, hviolated⟩ := h
  obtain ⟨improvedMs, totalMs, himproved, htotal, hread⟩ :=
    ofLines_of_timely hpenalties htimes htimely
  rw [hread, readRest_of_solution hiterations hbest hsolution,
    hconstraints.findLine (heading?_eq_some_iff _), ok_bind, hviolated.readEntries gives_amount]
  exact ⟨_, rfl, rfl, himproved, htotal, rfl, NameMap.keeps_ofList _, NameMap.keeps_ofList _⟩

/-- **Texts that lack an item** are reported with it. -/
theorem Lacks.ofLines {item : String} (h : Lacks lines item) :
    ofLines (lines.map utf8) = .error (.missing item) := by
  cases h with
  | penalties h => rw [SolverLog.ofLines, h.findLine penaltyLine?_eq_some_iff, error_bind]
  | times hpenalties h =>
    simp only [SolverLog.ofLines, hpenalties.findLine penaltyLine?_eq_some_iff, ok_bind,
      h.findLine timeLine?_eq_some_iff, error_bind]
  | iterations hpenalties htimes htimely h =>
    obtain ⟨improvedMs, totalMs, -, -, hread⟩ := ofLines_of_timely hpenalties htimes htimely
    rw [hread, readRest, h.findLine iterationLine?_eq_some_iff, error_bind]
  | best hpenalties htimes htimely hiterations h =>
    obtain ⟨improvedMs, totalMs, -, -, hread⟩ := ofLines_of_timely hpenalties htimes htimely
    simp only [hread, readRest, hiterations.findLine iterationLine?_eq_some_iff, ok_bind,
      h.findLine (heading?_eq_some_iff _), error_bind]
  | constraints hpenalties htimes htimely hiterations hbest hsolution h =>
    -- The line after the solution is among those searched, whichever branch is taken.
    obtain ⟨improvedMs, totalMs, -, -, hread⟩ := ofLines_of_timely hpenalties htimes htimely
    rw [hread, readRest_of_solution hiterations hbest hsolution,
      h.findLine (heading?_eq_some_iff _), error_bind]

/-- If the layout is not there, an item is lacking or a number is refused. -/
theorem layout_or_lacks (lines : List (List Char)) :
    (∃ items, Layout lines items) ∨ (∃ item, Lacks lines item) ∨
      ∃ text, ofLines (lines.map utf8) = .error (.invalidNumber text) := by
  -- Item by item: what follows an item is searched for the next one.
  rcases first_or_absent IsPenalty lines with ⟨p, lines₁, hpenalties⟩ | h
  swap
  · exact .inr (.inl ⟨_, .penalties h⟩)
  rcases first_or_absent IsTime lines₁ with ⟨t, lines₂, htimes⟩ | h
  swap
  · exact .inr (.inl ⟨_, .times hpenalties h⟩)
  by_cases htimely : t.1.Timely ∧ t.2.Timely
  swap
  · exact .inr (.inr (ofLines_of_not_timely hpenalties htimes htimely))
  rcases first_or_absent IsIteration lines₂ with ⟨n, lines₃, hiterations⟩ | h
  swap
  · exact .inr (.inl ⟨_, .iterations hpenalties htimes htimely h⟩)
  rcases first_or_absent (IsHeading solutionHeading) lines₃ with ⟨_, lines₄, hbest⟩ | h
  swap
  · exact .inr (.inl ⟨_, .best hpenalties htimes htimely hiterations h⟩)
  obtain ⟨entries, lines₅, hsolution⟩ := exists_run lines₄
  rcases first_or_absent (IsHeading violatedHeading) lines₅ with ⟨_, lines₆, hconstraints⟩ | h
  swap
  · exact .inr (.inl ⟨_, .constraints hpenalties htimes htimely hiterations hbest hsolution h⟩)
  rcases run_or_error gives_amount lines₆ with ⟨amounts, rest, hviolated⟩ | ⟨_, _, e, he, hread⟩
  · exact .inl ⟨⟨p, t, n, entries, amounts⟩, .intro hpenalties htimes htimely hiterations hbest
      hsolution hconstraints hviolated⟩
  · obtain ⟨text, rfl⟩ := amount_error he
    obtain ⟨improvedMs, totalMs, -, -, hrest⟩ := ofLines_of_timely hpenalties htimes htimely
    refine .inr (.inr ⟨text, ?_⟩)
    rw [hrest, readRest_of_solution hiterations hbest hsolution,
      hconstraints.findLine (heading?_eq_some_iff _), ok_bind, hread, error_bind]

/-- A layout tells one log. -/
theorem Items.Told.eq {items : Items} {log log' : SolverLog} (h : items.Told log)
    (h' : items.Told log') : log = log' := by
  have hpenalties := Prod.ext_iff.1 (h.penalties.trans h'.penalties.symm)
  have himproved := Except.ok.inj (h.improved.symm.trans h'.improved)
  have htotal := Except.ok.inj (h.total.symm.trans h'.total)
  have hiterations := Prod.ext_iff.1 (h.iterations.trans h'.iterations.symm)
  have hsolution := (NameMap.keeps_iff.1 h.solution).trans (NameMap.keeps_iff.1 h'.solution).symm
  have hviolated := (NameMap.keeps_iff.1 h.violated).trans (NameMap.keeps_iff.1 h'.violated).symm
  cases log
  cases log'
  rw [SolverLog.mk.injEq]
  exact ⟨hpenalties.1, hpenalties.2, himproved, htotal, hiterations.1, hiterations.2, hsolution,
    hviolated⟩

/-- A log is read if the lines have a layout. -/
theorem exists_ofLines_iff :
    (∃ log, ofLines (lines.map utf8) = .ok log) ↔ ∃ items, Layout lines items := by
  constructor
  · rintro ⟨log, hlog⟩
    rcases layout_or_lacks lines with h | ⟨item, h⟩ | ⟨text, h⟩
    · exact h
    · exact absurd (hlog.symm.trans h.ofLines) (by simp)
    · exact absurd (hlog.symm.trans h) (by simp)
  · rintro ⟨items, h⟩
    obtain ⟨log, hlog, -⟩ := h.ofLines
    exact ⟨log, hlog⟩

theorem ofLines_eq_ok_iff {log : SolverLog} :
    ofLines (lines.map utf8) = .ok log ↔ ∃ items, Layout lines items ∧ items.Told log := by
  constructor
  · intro hlog
    obtain ⟨items, h⟩ := exists_ofLines_iff.1 ⟨log, hlog⟩
    obtain ⟨log', hlog', htold⟩ := h.ofLines
    obtain rfl := Except.ok.inj (hlog.symm.trans hlog')
    exact ⟨items, h, htold⟩
  · rintro ⟨items, h, htold⟩
    obtain ⟨log', hlog', htold'⟩ := h.ofLines
    rwa [htold.eq htold']

theorem ofLines_eq_missing_iff {item : String} :
    ofLines (lines.map utf8) = .error (.missing item) ↔ Lacks lines item := by
  refine ⟨fun hmissing => ?_, Lacks.ofLines⟩
  rcases layout_or_lacks lines with ⟨items, h⟩ | ⟨item', h⟩ | ⟨text, h⟩
  · obtain ⟨log, hlog, -⟩ := h.ofLines
    exact absurd (hmissing.symm.trans hlog) (by simp)
  · obtain rfl : item = item' := by simpa using hmissing.symm.trans h.ofLines
    exact h
  · exact absurd (hmissing.symm.trans h) (by simp)

/-- **Logs.** A text is read as a log exactly if it has the layout, the log then holds what the
items say, and an item is reported missing exactly if the text lacks it. -/
theorem parse_layout (text : String) :
    ((∃ log, parse text.toUTF8.data.toList = .ok log) ↔
      ∃ items, Layout (textLines text.toList) items) ∧
    (∀ log, parse text.toUTF8.data.toList = .ok log ↔
      ∃ items, Layout (textLines text.toList) items ∧ items.Told log) ∧
    ∀ item, parse text.toUTF8.data.toList = .error (.missing item) ↔
      Lacks (textLines text.toList) item := by
  simp only [parse, toList_toUTF8, rawLines_utf8]
  exact ⟨exists_ofLines_iff, fun _ => ofLines_eq_ok_iff, fun _ => ofLines_eq_missing_iff⟩

end SolverLog

end WeightedCsp

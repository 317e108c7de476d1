import Mathlib.Algebra.Order.BigOperators.Group.List
import WeightedCsp.Proofs.Encoding.Growth
import WeightedCsp.Sat.Backend

/-!
# A backend that is right

The reference backend remembers the clauses and answers by case distinction: it makes a literal
true, drops what this satisfies and falsifies, and goes on with the rest.  Every case has fewer
literals, so the number of literals bounds the depth.  It shows that sound backends exist
(`Backend.reference_sound`), and runs on small inputs.
-/

namespace WeightedCsp

namespace Clauses

/-- What is left to satisfy once the literal is true. -/
def given (l : Lit) (cs : List Clause) : List Clause :=
  (cs.filter (l ∉ ·)).map (·.filter (· ≠ l.not))

/-- The number of literals. -/
def size (cs : List Clause) : Nat := (cs.map List.length).sum

/-- A literal of a clause of one literal if there is one, and otherwise the first literal. -/
def pick (cs : List Clause) : Option Lit :=
  match cs.find? (·.length = 1) with
  | some c => c.head?
  | none => cs.head?.bind List.head?

/-- A valuation that satisfies the clauses, looked for to the given depth. -/
def search : Nat → List Clause → Option Valuation
  | 0, _ => none
  | depth + 1, cs =>
    if [] ∈ cs then none
    else
      match pick cs with
      | none => some fun _ => false
      | some l =>
        match search depth (given l cs) with
        | some v => some (v.update l.var !l.neg)
        | none => (search depth (given l.not cs)).map fun v => v.update l.var l.neg

/-- What is left under a literal is satisfied as the whole is. -/
theorem satisfies_given {v : Valuation} {l : Lit} {cs : List Clause} (hl : v.lit l = true) :
    v.Satisfies (given l cs) ↔ v.Satisfies cs := by
  have hnot : v.lit l.not = false := by simp [hl]
  constructor
  · intro h c hc
    by_cases hmem : l ∈ c
    · exact Valuation.clause_eq_true_iff.2 ⟨l, hmem, hl⟩
    · have hgiven : c.filter (· ≠ l.not) ∈ given l cs :=
        List.mem_map.2 ⟨c, List.mem_filter.2 ⟨hc, by simpa using hmem⟩, rfl⟩
      obtain ⟨m, hm, ht⟩ := Valuation.clause_eq_true_iff.1 (h _ hgiven)
      exact Valuation.clause_eq_true_iff.2 ⟨m, (List.mem_filter.1 hm).1, ht⟩
  · intro h c hc
    obtain ⟨d, hd, rfl⟩ := List.mem_map.1 hc
    obtain ⟨m, hm, ht⟩ := Valuation.clause_eq_true_iff.1 (h d (List.mem_filter.1 hd).1)
    refine Valuation.clause_eq_true_iff.2 ⟨m, List.mem_filter.2 ⟨hm, ?_⟩, ht⟩
    rw [decide_eq_true_eq]
    rintro rfl
    rw [hnot] at ht
    cases ht

theorem lit_update {v : Valuation} (l : Lit) : (v.update l.var !l.neg).lit l = true := by
  cases h : l.neg <;> simp [Valuation.lit, h]

theorem eq_or_eq_not {l m : Lit} (h : m.var = l.var) : m = l ∨ m = l.not := by
  obtain ⟨x, b⟩ := l
  obtain ⟨y, c⟩ := m
  cases h
  cases b <;> cases c <;> simp [Lit.not]

/-- Making the literal true changes nothing in what is left. -/
theorem satisfies_given_update {v : Valuation} {l : Lit} {cs : List Clause}
    (h : v.Satisfies (given l cs)) : (v.update l.var !l.neg).Satisfies (given l cs) := by
  intro c hc
  obtain ⟨m, hm, ht⟩ := Valuation.clause_eq_true_iff.1 (h c hc)
  refine Valuation.clause_eq_true_iff.2 ⟨m, hm, ?_⟩
  have hvar : m.var ≠ l.var := by
    intro heq
    obtain ⟨d, hd, rfl⟩ := List.mem_map.1 hc
    have hd' : l ∉ d := by simpa using (List.mem_filter.1 hd).2
    have hm' : m ≠ l.not := by simpa using (List.mem_filter.1 hm).2
    rcases eq_or_eq_not heq with rfl | rfl
    · exact hd' (List.mem_filter.1 hm).1
    · exact hm' rfl
  simpa [Valuation.lit, Valuation.update, hvar] using ht

theorem pick_mem {cs : List Clause} {l : Lit} (h : pick cs = some l) : ∃ c ∈ cs, l ∈ c := by
  unfold pick at h
  split at h
  · next c hc => exact ⟨c, List.mem_of_find?_eq_some hc, List.mem_of_head? h⟩
  · obtain ⟨c, hc, hl⟩ := Option.bind_eq_some_iff.1 h
    exact ⟨c, List.mem_of_head? hc, List.mem_of_head? hl⟩

theorem pick_eq_none {cs : List Clause} (hempty : [] ∉ cs) (h : pick cs = none) : cs = [] := by
  unfold pick at h
  split at h
  · next c hc =>
    have := List.mem_of_find?_eq_some hc
    rw [List.head?_eq_none_iff] at h
    exact absurd (h ▸ this) hempty
  · cases cs with
    | nil => rfl
    | cons c cs =>
      have hc : c = [] := by simpa using h
      exact absurd (by simp [hc]) hempty

theorem size_given (l : Lit) (cs : List Clause) :
    size (given l cs) =
      (cs.map fun c => if l ∈ c then 0 else (c.filter (· ≠ l.not)).length).sum := by
  induction cs with
  | nil => rfl
  | cons c cs ih =>
    rw [List.map_cons, List.sum_cons, ← ih]
    by_cases hl : l ∈ c
    · simp [given, size, hl]
    · simp [given, size, hl]

/-- Under a literal that occurs, or its negation, there is less left. -/
theorem size_given_lt {cs : List Clause} {l m : Lit} {c : Clause} (hc : c ∈ cs) (hm : m ∈ c)
    (hml : m = l ∨ m = l.not) : size (given l cs) < size cs := by
  rw [size_given, size]
  refine List.sum_lt_sum _ _ (fun d _ => ?_) ⟨c, hc, ?_⟩
  · split_ifs
    · exact Nat.zero_le _
    · exact List.length_filter_le _ _
  · split_ifs with hl
    · exact List.length_pos_of_mem hm
    · rcases hml with rfl | rfl
      · exact absurd hm hl
      · exact List.length_filter_lt_length_iff_exists.2 ⟨l.not, hm, by simp⟩

/-- What is found satisfies the clauses. -/
theorem satisfies_of_search {depth : Nat} {cs : List Clause} {v : Valuation}
    (h : search depth cs = some v) : v.Satisfies cs := by
  induction depth generalizing cs v with
  | zero => cases h
  | succ depth ih =>
    unfold search at h
    split_ifs at h with hempty
    split at h
    · next hpick =>
      rw [pick_eq_none hempty hpick]
      exact Valuation.satisfies_nil v
    · next l hpick =>
      split at h
      · next w hw =>
        cases h
        exact (satisfies_given (lit_update l)).1 (satisfies_given_update (ih hw))
      · obtain ⟨w, hw, rfl⟩ := Option.map_eq_some_iff.1 h
        -- The second branch makes the negated literal true.
        have hupdate : w.update l.var l.neg = w.update l.not.var !l.not.neg := by simp [Lit.not]
        rw [hupdate]
        exact (satisfies_given (lit_update l.not)).1 (satisfies_given_update (ih hw))

/-- Where nothing is found, deep enough, nothing satisfies them. -/
theorem not_satisfies_of_search {depth : Nat} {cs : List Clause} (hdepth : size cs < depth)
    (h : search depth cs = none) (v : Valuation) : ¬ v.Satisfies cs := by
  induction depth generalizing cs with
  | zero => omega
  | succ depth ih =>
    intro hv
    unfold search at h
    split_ifs at h with hempty
    · have := hv [] hempty
      simp [Valuation.clause] at this
    · split at h
      · cases h
      · next l hpick =>
        obtain ⟨c, hc, hl⟩ := pick_mem hpick
        split at h
        · cases h
        · next hnone =>
          have hnone' : search depth (given l.not cs) = none := by simpa using h
          -- A model of the clauses makes one of the two literals true, and its branch has one too.
          cases htrue : v.lit l with
          | true =>
            have hlt := size_given_lt hc hl (.inl rfl)
            exact ih (by omega) hnone ((satisfies_given htrue).2 hv)
          | false =>
            have hlt : size (given l.not cs) < size cs :=
              size_given_lt hc hl (.inr (by simp))
            exact ih (by omega) hnone' ((satisfies_given (by simp [htrue])).2 hv)

end Clauses

/-- The backend that remembers the clauses and searches through all cases. -/
def Backend.reference : Backend (List Clause) where
  add s c := (.ok (), s ++ [c])
  solve s assumptions _ :=
    let cs := s ++ assumptions.map ([·])
    match Clauses.search (Clauses.size cs + 1) cs with
    | some v => (.ok (.sat fun x => if v x then .true else .false), s)
    | none => (.ok .unsat, s)
  elapsed _ := 0

/-- The reference backend refuses no clause. -/
theorem Backend.reference_accepting : Backend.reference.Accepting := fun _ _ => rfl

/-- **Sound backends exist.** -/
theorem Backend.reference_sound : Backend.reference.Sound id := by
  refine ⟨fun _ _ _ => rfl, fun s assumptions limit => ?_, fun s assumptions limit answer h => ?_⟩
  · simp only [reference]
    split <;> rfl
  · -- Assumptions are searched for as unit clauses.
    have hlits : ∀ v : Valuation, v.Satisfies (assumptions.map ([·])) ↔
        ∀ l ∈ assumptions, v.lit l = true := by
      intro v
      simp [Valuation.Satisfies, Valuation.clause]
    simp only [reference] at h
    split at h
    · next v hv =>
      cases h
      have hlit : ∀ l, v.lit l = true →
          litValue (fun x => if v x then Ternary.true else Ternary.false) l = .true := by
        intro l hl
        unfold litValue
        cases hneg : l.neg <;> cases hvar : v l.var <;>
          simp_all [Valuation.lit, Ternary.not]
      obtain ⟨hs, has⟩ := Valuation.satisfies_append.1 (Clauses.satisfies_of_search hv)
      refine ⟨fun c hc => ?_, fun l hl => hlit l ((hlits v).1 has l hl)⟩
      obtain ⟨l, hl, ht⟩ := Valuation.clause_eq_true_iff.1 (hs c hc)
      exact ⟨l, hl, hlit l ht⟩
    · next hnone =>
      cases h
      intro v hv
      by_contra hcon
      push Not at hcon
      refine Clauses.not_satisfies_of_search (Nat.lt_succ_self _) hnone v ?_
      refine Valuation.satisfies_append.2 ⟨hv, (hlits v).2 fun l hl => ?_⟩
      simpa using hcon l hl

/-! ### Giving up -/

section Cut

variable {σ : Type} {b : Backend σ} {clauses : σ → List Clause}

/-- The backend that counts the questions and gives up on some of them. -/
def Backend.cut (gives : Nat → Bool) (b : Backend σ) : Backend (Nat × σ) where
  add s c := ((b.add s.2 c).1, s.1, (b.add s.2 c).2)
  solve s assumptions time :=
    if gives s.1 then (.ok .interrupted, s.1 + 1, s.2)
    else
      let r := b.solve s.2 assumptions time
      (r.1, s.1 + 1, r.2)
  elapsed s := b.elapsed s.2

/-- A backend that is cut off now and then stays sound. -/
theorem Backend.cut_sound (hb : b.Sound clauses) (gives : Nat → Bool) :
    (b.cut gives).Sound fun s => clauses s.2 := by
  refine ⟨fun s c => hb.add s.2 c, fun s assumptions time => ?_,
    fun s assumptions time answer h => ?_⟩
  · simp only [cut]
    split
    · rfl
    · exact hb.solve s.2 assumptions time
  · simp only [cut] at h
    split at h
    · cases h
      trivial
    · exact hb.right s.2 assumptions time answer h

end Cut

/-! ### Answering from a script -/

/-- The variables of the list are true, and all others are false. -/
def Ternary.among (trues : List Nat) (x : Nat) : Ternary := if x ∈ trues then .true else .false

/-- The backend that answers every question with the next entry of a script, the list of true
variables, as long as this is an answer, and gives up otherwise. -/
def Backend.replay : Backend (List (List Nat) × List Clause) where
  add s c := (.ok (), s.1, s.2 ++ [c])
  solve s assumptions _ :=
    match s.1 with
    | [] => (.ok .interrupted, s)
    | trues :: rest =>
      if (∀ c ∈ s.2, ∃ l ∈ c, litValue (.among trues) l = .true) ∧
          ∀ l ∈ assumptions, litValue (.among trues) l = .true then
        (.ok (.sat (.among trues)), rest, s.2)
      else (.ok .interrupted, rest, s.2)
  elapsed _ := 0

/-- A backend that only repeats answers stays sound. -/
theorem Backend.replay_sound : Backend.replay.Sound (·.2) := by
  refine ⟨fun _ _ _ => rfl, fun ⟨script, cs⟩ assumptions limit => ?_,
    fun ⟨script, cs⟩ assumptions limit answer h => ?_⟩
  · cases script with
    | nil => rfl
    | cons trues rest =>
      simp only [replay]
      split <;> rfl
  · cases script with
    | nil =>
      cases h
      trivial
    | cons trues rest =>
      simp only [replay] at h
      split at h
      · next hright =>
        cases h
        exact hright
      · cases h
        trivial

end WeightedCsp

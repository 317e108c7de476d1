import Mathlib.Data.List.Basic
import Mathlib.Data.List.TakeWhile
import WeightedCsp.Encoding.Order
import WeightedCsp.Encoding.PseudoBoolean
import WeightedCsp.Proofs.Encoding.Growth

/-!
# Correctness of the order encoding

`Shows v x k` says that the order literals of `x` stand for the value `k` under `v`: literal `i` is
true exactly when `k` is at most value `i`.  A valuation that satisfies the chain clauses shows the
value it decodes to and no other, and every value is shown by some setting of the literals
(`encode_encodes`).  Everything else is read off a shown value: bounds are single atoms (`eval_le`,
`eval_ge`), the steps between the values add up to it (`lb_add_total`), and the atom of an equality
is true exactly at it (`eqAtom_encodes`).
-/

namespace WeightedCsp

/-! ### Atoms -/

namespace Atom

/-- The variable of the atom, if it has one, is below `n`. -/
def Below (n : Nat) : Atom → Prop
  | .lit l => l.var < n
  | _ => True

/-- An atom below a bound is below every larger one. -/
theorem Below.mono {m n : Nat} {a : Atom} (h : a.Below m) (hmn : m ≤ n) : a.Below n := by
  cases a with
  | lit l => exact Nat.lt_of_lt_of_le h hmn
  | _ => trivial

/-- The negation of an atom speaks of the same variable. -/
theorem Below.not {n : Nat} {a : Atom} (h : a.Below n) : a.not.Below n := by
  cases a with
  | lit l => exact h
  | _ => trivial

/-- The truth of an atom hangs on its variable. -/
theorem Below.eval_eq {n : Nat} {a : Atom} (h : a.Below n) {v w : Valuation}
    (hvw : v.AgreesBelow n w) : a.eval w = a.eval v := by
  cases a with
  | lit l => exact hvw.lit_eq h
  | _ => rfl

/-- A disjunction that needs no clause has a true atom. -/
theorem eval_of_clause?_eq_none {v : Valuation} {atoms : List Atom}
    (h : clause? atoms = none) : ∃ a ∈ atoms, a.eval v := by
  induction atoms with
  | nil => cases h
  | cons a atoms ih =>
    cases a with
    | true => exact ⟨.true, by simp, rfl⟩
    | false =>
      obtain ⟨b, hb, ht⟩ := ih h
      exact ⟨b, List.mem_cons_of_mem _ hb, ht⟩
    | lit l =>
      obtain ⟨b, hb, ht⟩ := ih (Option.map_eq_none_iff.1 h)
      exact ⟨b, List.mem_cons_of_mem _ hb, ht⟩

/-- The clause of a disjunction is true where one of its atoms is. -/
theorem clause_iff_of_clause?_eq_some {v : Valuation} {atoms : List Atom} {c : Clause}
    (h : clause? atoms = some c) : v.clause c ↔ ∃ a ∈ atoms, a.eval v := by
  induction atoms generalizing c with
  | nil =>
    cases h
    simp [Valuation.clause]
  | cons a atoms ih =>
    cases a with
    | true => cases h
    | false =>
      rw [ih h]
      simp [eval]
    | lit l =>
      obtain ⟨d, hd, rfl⟩ := Option.map_eq_some_iff.1 h
      have hd' := ih hd
      simp only [Valuation.clause] at hd' ⊢
      simp only [List.any_cons, Bool.or_eq_true, hd', List.mem_cons, exists_eq_or_imp, eval]

/-- The clause of a disjunction speaks of its atoms only. -/
theorem below_of_clause?_eq_some {n : Nat} {atoms : List Atom} {c : Clause}
    (h : clause? atoms = some c) (hn : ∀ a ∈ atoms, a.Below n) : ∀ l ∈ c, l.var < n := by
  induction atoms generalizing c with
  | nil =>
    cases h
    simp
  | cons a atoms ih =>
    have hrest : ∀ b ∈ atoms, b.Below n := fun b hb => hn b (List.mem_cons_of_mem _ hb)
    cases a with
    | true => cases h
    | false => exact ih h hrest
    | lit l =>
      obtain ⟨d, hd, rfl⟩ := Option.map_eq_some_iff.1 h
      intro m hm
      rcases List.mem_cons.1 hm with rfl | hm
      · exact hn (.lit m) (by simp)
      · exact ih hd hrest m hm

theorem growing_addClause {ε : Type} (atoms : List Atom) :
    Encoder.Growing (addClause atoms : Encoder ε Unit) := by
  unfold addClause
  split
  · exact Encoder.growing_pure _
  · exact Encoder.growing_addClause _

/-- Adding a disjunction demands it, and nothing else. -/
theorem addClause_encodes {ε : Type} {atoms : List Atom} {s t : Cnf} {x : Unit}
    (h : (addClause atoms : Encoder ε Unit) s = .ok x t) (hn : ∀ a ∈ atoms, a.Below s.next) :
    Encodes s t (fun v => ∃ a ∈ atoms, a.eval v) (fun v => ∃ a ∈ atoms, a.eval v)
      fun _ => True := by
  cases hc : clause? atoms with
  | none =>
    simp only [addClause, hc] at h
    obtain ⟨-, rfl⟩ := Step.pure_eq_ok.1 h
    exact Encodes.refl s (fun v => eval_of_clause?_eq_none hc) fun _ _ => trivial
  | some c =>
    simp only [addClause, hc] at h
    refine (Encodes.addClause h (below_of_clause?_eq_some hc hn)).mono ?_ ?_ fun _ _ => trivial
    · intro v hv
      exact (clause_iff_of_clause?_eq_some hc).1 hv
    · intro v hv
      exact (clause_iff_of_clause?_eq_some hc).2 hv

end Atom

namespace OrderVar

/-! ### Shown values -/

/-- The values ascend, there is one literal fewer, and the literals are variables below `n`. -/
structure WellFormed (n : Nat) (x : OrderVar) : Prop where
  /-- Each value is above the one before it. -/
  ascending : x.values.Pairwise (· < ·)
  /-- Every value but the last has a literal. -/
  length : x.lits.length + 1 = x.values.length
  /-- Literals are not negated. -/
  positive : ∀ l ∈ x.lits, l.neg = false
  /-- The variables of the literals are below `n`. -/
  below : ∀ l ∈ x.lits, l.var < n

/-- A well-formed variable stays so when variables are handed out. -/
theorem WellFormed.mono {m n : Nat} {x : OrderVar} (h : x.WellFormed m) (hmn : m ≤ n) :
    x.WellFormed n :=
  ⟨h.ascending, h.length, h.positive, fun l hl => Nat.lt_of_lt_of_le (h.below l hl) hmn⟩

/-- There is a value, and a literal for each one after it. -/
theorem WellFormed.values_eq_cons {n : Nat} {x : OrderVar} (h : x.WellFormed n) :
    ∃ u us, x.values = u :: us ∧ x.lits.length = us.length := by
  have hlen := h.length
  cases hv : x.values with
  | nil =>
    rw [hv] at hlen
    simp at hlen
  | cons u us =>
    rw [hv] at hlen
    exact ⟨u, us, rfl, by simpa using hlen⟩

/-- Literal `i` is true exactly when `k`, one of the values, is at most value `i`. -/
structure Shows (v : Valuation) (x : OrderVar) (k : Int) : Prop where
  /-- The variable takes one of its values. -/
  mem : k ∈ x.values
  /-- Each literal compares the value with its own. -/
  lits : ∀ p ∈ x.lits.zip x.values, v.lit p.1 = decide (k ≤ p.2)

/-- Which value is shown hangs on the literals of the variable. -/
theorem Shows.congr {n : Nat} {x : OrderVar} (hx : x.WellFormed n) {v w : Valuation}
    (hvw : v.AgreesBelow n w) {k : Int} (h : x.Shows v k) : x.Shows w k := by
  refine ⟨h.mem, fun p hp => ?_⟩
  rw [hvw.lit_eq (hx.below p.1 (List.of_mem_zip hp).1)]
  exact h.lits p hp

/-! ### Searches -/

/-- A search parts ascending values into those below the sought one and the others, and it finds the
sought one if that is the first of the others. -/
theorem exists_search_eq {x : OrderVar} (hasc : x.values.Pairwise (· < ·)) (m : Int) :
    ∃ us ws, x.values = us ++ ws ∧ (∀ u ∈ us, u < m) ∧ (∀ w ∈ ws, m ≤ w) ∧
      x.search m = if ws.head? = some m then .ok us.length else .error us.length := by
  have happ : x.values = x.values.takeWhile (· < m) ++ x.values.dropWhile (· < m) := by simp
  refine ⟨_, _, happ, fun u hu => by simpa using List.mem_takeWhile_imp hu, fun w hw => ?_, ?_⟩
  · -- The first of the others is not below `m`, and those after it are above it.
    rw [happ] at hasc
    cases hrest : x.values.dropWhile (· < m) with
    | nil => simp [hrest] at hw
    | cons r rs =>
      have hr : m ≤ r := by simpa [hrest] using List.head?_dropWhile_not (· < m) x.values
      rw [hrest] at hw hasc
      rcases List.mem_cons.1 hw with rfl | hw
      · exact hr
      · exact hr.trans ((List.pairwise_cons.1 (List.pairwise_append.1 hasc).2.1).1 w hw).le
  · unfold search
    simp only [List.head?_eq_getElem?]
    congr 2
    conv_lhs => rw [happ]
    rw [List.getElem?_append_right (by simp)]
    simp

/-- A search finds the values of the variable. -/
theorem search_eq_ok_iff {x : OrderVar} (hasc : x.values.Pairwise (· < ·)) {m : Int} :
    (∃ i, x.search m = .ok i) ↔ m ∈ x.values := by
  obtain ⟨us, ws, hval, hus, hws, hsearch⟩ := exists_search_eq hasc m
  rw [hsearch, hval]
  split_ifs with hhead
  · exact ⟨fun _ => List.mem_append_right _ (List.mem_of_head? hhead), fun _ => ⟨_, rfl⟩⟩
  · refine ⟨fun h => ?_, fun hm => absurd ?_ hhead⟩
    · obtain ⟨i, hi⟩ := h
      cases hi
    rcases List.mem_append.1 hm with hm | hm
    · exact absurd (hus m hm) (lt_irrefl m)
    · -- Nothing is below `m` among the others, so it is the first of them.
      cases ws with
      | nil => simp at hm
      | cons w ws =>
        rw [hval] at hasc
        rcases List.mem_cons.1 hm with rfl | hm
        · rfl
        · have := (List.pairwise_cons.1 (List.pairwise_append.1 hasc).2.1).1 m hm
          have := hws w (by simp)
          omega

/-- The place below `m` is that of the greatest value that is at most `m`. -/
theorem exists_placeBelow_eq {x : OrderVar} (hasc : x.values.Pairwise (· < ·)) {m : Int}
    (hne : x.values ≠ []) (hm : x.lb ≤ m) :
    ∃ us u ws, x.values = us ++ u :: ws ∧ x.placeBelow m = us.length ∧ u ≤ m ∧
      ∀ w ∈ ws, m < w := by
  obtain ⟨us, ws, hval, hus, hws, hsearch⟩ := exists_search_eq hasc m
  rw [hval] at hasc
  split_ifs at hsearch with hhead
  · obtain ⟨ws, rfl⟩ := List.head?_eq_some_iff.1 hhead
    exact ⟨us, m, ws, hval, by simp [placeBelow, hsearch], le_refl m,
      (List.pairwise_cons.1 (List.pairwise_append.1 hasc).2.1).1⟩
  · -- The value in front of the insertion point exists, as the least one is at most `m`.
    have hpos : us ≠ [] := by
      rintro rfl
      cases ws with
      | nil => exact hne hval
      | cons w ws =>
        have hle : m ≤ w := hws w (by simp)
        rw [lb, hval] at hm
        exact hhead (congrArg some (le_antisymm hm hle))
    refine ⟨us.dropLast, us.getLast hpos, ws, ?_, by simp [placeBelow, hsearch], ?_, fun w hw => ?_⟩
    · rw [hval, List.append_cons, List.dropLast_append_getLast hpos]
    · exact (hus _ (List.getLast_mem hpos)).le
    · refine lt_of_le_of_ne (hws w hw) ?_
      rintro rfl
      cases ws with
      | nil => simp at hw
      | cons w' ws =>
        rcases List.mem_cons.1 hw with rfl | hw
        · exact hhead rfl
        · have := (List.pairwise_cons.1 (List.pairwise_append.1 hasc).2.1).1 _ hw
          have := hws w' (by simp)
          omega

/-! ### Bounds -/

section Ascending

variable {k u w : Int} {us : List Int}

/-- A value that is at most the first one or one of the rest stays so one value further on. -/
theorem le_or_mem_tail (huw : u < w) (h : k ≤ u ∨ k ∈ u :: w :: us) : k ≤ w ∨ k ∈ w :: us := by
  rcases h with h | h
  · exact .inl (h.trans huw.le)
  rcases List.mem_cons.1 h with rfl | h
  · exact .inl huw.le
  · exact .inr h

/-- There is no value between the first two. -/
theorem second_le_of_lt (hasc : (u :: w :: us).Pairwise (· < ·)) (h : k ≤ u ∨ k ∈ u :: w :: us)
    (hlt : u < k) : w ≤ k := by
  rcases h with h | h
  · omega
  rcases List.mem_cons.1 h with rfl | h
  · omega
  rcases List.mem_cons.1 h with rfl | h
  · exact le_refl k
  · exact ((List.pairwise_cons.1 (List.pairwise_cons.1 hasc).2).1 k h).le

end Ascending

/-- The least value is a lower bound. -/
theorem lb_le_of_mem {n : Nat} {x : OrderVar} (hx : x.WellFormed n) {k : Int}
    (hk : k ∈ x.values) : x.lb ≤ k := by
  obtain ⟨u, us, hv, -⟩ := hx.values_eq_cons
  have hasc := hx.ascending
  rw [hv] at hk hasc
  simp only [lb, hv, List.headD_cons]
  rcases List.mem_cons.1 hk with rfl | h
  · exact le_refl k
  · exact ((List.pairwise_cons.1 hasc).1 k h).le

/-- The last of ascending values is an upper bound. -/
theorem le_getLastD_of_mem {us : List Int} :
    ∀ {u : Int}, (u :: us).Pairwise (· < ·) → ∀ k ∈ u :: us, k ≤ us.getLastD u := by
  induction us with
  | nil =>
    intro u _ k hk
    simpa using (List.mem_singleton.1 hk).le
  | cons w us ih =>
    intro u hasc k hk
    obtain ⟨hu, hasc'⟩ := List.pairwise_cons.1 hasc
    rw [List.getLastD_cons]
    rcases List.mem_cons.1 hk with rfl | hk
    · exact (hu w (by simp)).le.trans (ih hasc' w (by simp))
    · exact ih hasc' k hk

/-- The literal at the place of a value other than the last compares with that value. -/
theorem eval_lit_of_values {n : Nat} {x : OrderVar} (hx : x.WellFormed n) {v : Valuation}
    {k u : Int} (h : x.Shows v k) {us ws : List Int} (hval : x.values = us ++ u :: ws)
    (hne : ws ≠ []) :
    ∃ l, x.lits[us.length]? = some l ∧ v.lit l = decide (k ≤ u) := by
  have hlt : us.length < x.lits.length := by
    have hlen := hx.length
    have hpos := List.length_pos_iff.2 hne
    simp only [hval, List.length_append, List.length_cons] at hlen
    omega
  refine ⟨x.lits[us.length], List.getElem?_eq_getElem hlt, ?_⟩
  refine h.lits (_, u) (List.mem_iff_getElem?.2 ⟨us.length, ?_⟩)
  rw [List.getElem?_zip_eq_some]
  exact ⟨List.getElem?_eq_getElem hlt, by simp [hval]⟩

/-- Where no value lies between `u` and `m`, a value is at most the one if it is at most the
other. -/
theorem le_iff_of_between {us ws : List Int} {k u m : Int}
    (hasc : (us ++ u :: ws).Pairwise (· < ·)) (hk : k ∈ us ++ u :: ws) (hum : u ≤ m)
    (hws : ∀ w ∈ ws, m < w) : k ≤ u ↔ k ≤ m := by
  refine ⟨fun h => h.trans hum, fun h => ?_⟩
  rcases List.mem_append.1 hk with hk | hk
  · exact ((List.pairwise_append.1 hasc).2.2 k hk u (by simp)).le
  rcases List.mem_cons.1 hk with rfl | hk
  · exact le_refl k
  · exact absurd (hws k hk) (Int.not_lt.2 h)

/-- **Upper bounds.** The atom for `x ≤ m` is true exactly when the shown value is at most
`m`, also for an `m` between, below or above the values. -/
theorem eval_le {n : Nat} {x : OrderVar} (hx : x.WellFormed n) {v : Valuation} {k : Int}
    (h : x.Shows v k) (m : Int) : (x.le m).eval v = decide (k ≤ m) := by
  have hlb := lb_le_of_mem hx h.mem
  obtain ⟨u, us, hv, -⟩ := hx.values_eq_cons
  have hkub : k ≤ x.ub := by
    rw [ub, hv, List.getLastD_cons]
    exact le_getLastD_of_mem (hv ▸ hx.ascending) k (hv ▸ h.mem)
  unfold le
  split_ifs with h₁ h₂
  · symm
    simp only [Atom.eval, decide_eq_false_iff_not]
    omega
  · symm
    simp only [Atom.eval, decide_eq_true_eq]
    omega
  · -- The bound is below the greatest value, so there are values above the place below it.
    obtain ⟨as, b, cs, hval, hplace, hb, hcs⟩ :=
      exists_placeBelow_eq hx.ascending (by simp [hv]) (Int.not_lt.1 h₁)
    have hne : cs ≠ [] := by
      rintro rfl
      have : x.ub = b := by rw [OrderVar.ub, hval, List.getLastD_concat]
      omega
    obtain ⟨l, hl, hlit⟩ := eval_lit_of_values hx h hval hne
    rw [hplace, hl]
    refine hlit.trans (decide_eq_decide.2 ?_)
    exact le_iff_of_between (hval ▸ hx.ascending) (hval ▸ h.mem) hb hcs

/-- The atom of an upper bound is one of the literals of the variable, or a constant. -/
theorem below_le {n : Nat} {x : OrderVar} (hx : x.WellFormed n) (m : Int) : (x.le m).Below n := by
  unfold le
  split_ifs
  · trivial
  · trivial
  · cases hl : x.lits[x.placeBelow m]? with
    | none => trivial
    | some l => exact hx.below l (List.mem_of_getElem? hl)

/-- **Lower bounds.** The atom for `x ≥ m` is true exactly when the shown value is at least
`m`. -/
theorem eval_ge {n : Nat} {x : OrderVar} (hx : x.WellFormed n) {v : Valuation} {k : Int}
    (h : x.Shows v k) {m : Int} {a : Atom} (ha : x.ge m = .ok a) :
    a.eval v = decide (m ≤ k) := by
  obtain ⟨m', hm', ha'⟩ := Checked.bind_eq_ok.1 ha
  cases ha'
  rw [Atom.eval_not, eval_le hx h, (Word.fit_eq_ok_iff.1 hm').2, ← decide_not, decide_eq_decide]
  omega

/-- The atom of a lower bound is one of the literals of the variable, or a constant. -/
theorem below_ge {n : Nat} {x : OrderVar} (hx : x.WellFormed n) {m : Int} {a : Atom}
    (ha : x.ge m = .ok a) : a.Below n := by
  obtain ⟨m', -, ha'⟩ := Checked.bind_eq_ok.1 ha
  cases ha'
  exact (below_le hx m').not

/-! ### Steps -/

/-- The steps that are taken from the first value on lead to the shown value, or nowhere if the
first value is above it. -/
theorem total_steps {v : Valuation} {k : Int} {us : List Int} :
    ∀ {u : Int} {ls : List Lit} {ws : List (Lit × Int)}, (u :: us).Pairwise (· < ·) →
      ls.length = us.length → (∀ p ∈ ls.zip (u :: us), v.lit p.1 = decide (k ≤ p.2)) →
      (k ≤ u ∨ k ∈ u :: us) → steps (u :: us) ls = .ok ws →
      u + PseudoBoolean.total v ws = max k u := by
  induction us with
  | nil =>
    intro u ls ws _ hlen _ hk hws
    obtain rfl : ls = [] := List.length_eq_zero_iff.1 hlen
    cases hws
    simp only [PseudoBoolean.total, List.foldr_nil]
    rcases hk with h | h
    · omega
    · have := List.mem_singleton.1 h
      omega
  | cons w us ih =>
    intro u ls ws hasc hlen hlits hk hws
    obtain ⟨l, ls, rfl⟩ := List.exists_cons_of_length_eq_add_one hlen
    obtain ⟨hu, hasc'⟩ := List.pairwise_cons.1 hasc
    have huw : u < w := hu w (by simp)
    have hl : v.lit l = decide (k ≤ u) := hlits (l, u) (by simp)
    rw [steps] at hws
    obtain ⟨d, hd, hws⟩ := Checked.bind_eq_ok.1 hws
    obtain ⟨rest, hrest, hws⟩ := Checked.bind_eq_ok.1 hws
    cases hws
    have hdiff : d = w - u := (Word.fit_eq_ok_iff.1 hd).2
    have htail := ih hasc' (by simpa using hlen)
      (fun p hp => hlits p (List.mem_cons_of_mem _ hp)) (le_or_mem_tail huw hk) hrest
    show u + ((if v.lit l.not then d else 0) + PseudoBoolean.total v rest) = max k u
    rw [Valuation.lit_not, hl]
    by_cases hku : k ≤ u
    · simp only [hku, decide_true, Bool.not_true, Bool.false_eq_true, ↓reduceIte]
      omega
    · -- A value above `u` is `w` or above it, so the step is taken.
      have hwk : w ≤ k := second_le_of_lt hasc hk (Int.lt_of_not_ge hku)
      simp only [hku, decide_false, Bool.not_false, ↓reduceIte]
      omega

/-- **The value as a sum.** The least value and the weighted literals add up to the shown value. -/
theorem lb_add_total {n : Nat} {x : OrderVar} (hx : x.WellFormed n) {v : Valuation} {k : Int}
    (h : x.Shows v k) {ws : List (Lit × Int)} (hws : x.weightedLits = .ok ws) :
    x.lb + PseudoBoolean.total v ws = k := by
  have hlb := lb_le_of_mem hx h.mem
  obtain ⟨u, us, hv, hlen⟩ := hx.values_eq_cons
  have hasc := hx.ascending
  have hlits := h.lits
  have hmem := h.mem
  rw [hv] at hasc hlits hmem
  rw [weightedLits, hv] at hws
  have hu : x.lb = u := by simp [lb, hv]
  rw [hu] at hlb ⊢
  rw [total_steps hasc hlen hlits (.inr hmem) hws]
  omega

/-- The steps speak of the literals of the variable. -/
theorem below_steps {n : Nat} {us : List Int} {ls : List Lit} {ws : List (Lit × Int)}
    (hls : ∀ l ∈ ls, l.var < n) (h : steps us ls = .ok ws) : ∀ p ∈ ws, p.1.var < n := by
  fun_induction steps us ls generalizing ws with
  | case1 u w us l ls ih =>
    obtain ⟨d, hd, h⟩ := Checked.bind_eq_ok.1 h
    obtain ⟨rest, hrest, h⟩ := Checked.bind_eq_ok.1 h
    cases h
    intro p hp
    rcases List.mem_cons.1 hp with rfl | hp
    · exact hls l (by simp)
    · exact ih (fun l' hl' => hls l' (List.mem_cons_of_mem _ hl')) hrest p hp
  | case2 us ls _ =>
    cases h
    simp

/-! ### Decoding -/

/-- In a chain, everything after a true literal is true. -/
theorem lit_of_satisfies_chain {v : Valuation} {l : Lit} {ls : List Lit}
    (h : v.Satisfies (chain (l :: ls))) (hl : v.lit l = true) : ∀ m ∈ ls, v.lit m = true := by
  induction ls generalizing l with
  | nil => simp
  | cons m ls ih =>
    rw [chain, Valuation.satisfies_cons] at h
    have hm : v.lit m = true := by
      obtain ⟨p, hp, ht⟩ := Valuation.clause_eq_true_iff.1 h.1
      rcases List.mem_cons.1 hp with rfl | hp
      · rw [Valuation.lit_not, hl] at ht
        cases ht
      · rwa [← List.mem_singleton.1 hp]
    intro q hq
    rcases List.mem_cons.1 hq with rfl | hq
    · exact hm
    · exact ih h.2 hm q hq

theorem satisfies_chain_tail {v : Valuation} {l : Lit} {ls : List Lit}
    (h : v.Satisfies (chain (l :: ls))) : v.Satisfies (chain ls) := by
  cases ls with
  | nil => exact Valuation.satisfies_nil v
  | cons m ls => exact (Valuation.satisfies_cons.1 h).2

/-- On a staircase, the decoded value is one of the values, and the literals compare it. -/
theorem decodeFrom_shown {v : Valuation} {us : List Int} :
    ∀ {u : Int} {ls : List Lit}, (u :: us).Pairwise (· < ·) → ls.length = us.length →
      v.Satisfies (chain ls) → decodeFrom v.lit u us ls ∈ u :: us ∧
        ∀ p ∈ ls.zip (u :: us), v.lit p.1 = decide (decodeFrom v.lit u us ls ≤ p.2) := by
  induction us with
  | nil =>
    intro u ls _ hlen _
    obtain rfl : ls = [] := List.length_eq_zero_iff.1 hlen
    simp [decodeFrom]
  | cons w us ih =>
    intro u ls hasc hlen hchain
    obtain ⟨l, ls, rfl⟩ := List.exists_cons_of_length_eq_add_one hlen
    obtain ⟨hu, hasc'⟩ := List.pairwise_cons.1 hasc
    rw [decodeFrom]
    split_ifs with hl
    · -- The first literal is true, and so are all later ones of the chain.
      refine ⟨by simp, fun p hp => ?_⟩
      have hp2 : u ≤ p.2 := by
        rcases List.mem_cons.1 (List.of_mem_zip hp).2 with h | h
        · omega
        · exact (hu p.2 h).le
      rw [decide_eq_true hp2]
      rcases List.mem_cons.1 (List.of_mem_zip hp).1 with h | h
      · rw [h, hl]
      · exact lit_of_satisfies_chain hchain hl p.1 h
    · -- The first literal is false, and the decoded value is one of the later ones.
      obtain ⟨hmem, hlits⟩ := ih hasc' (by simpa using hlen) (satisfies_chain_tail hchain)
      refine ⟨List.mem_cons_of_mem _ hmem, fun p hp => ?_⟩
      rw [List.zip_cons_cons] at hp
      rcases List.mem_cons.1 hp with rfl | hp
      · have := hu _ hmem
        rw [Bool.not_eq_true] at hl
        rw [hl, eq_comm, decide_eq_false_iff_not]
        omega
      · exact hlits p hp

/-- **Staircases decode.** A valuation that satisfies the chain clauses shows the value it decodes
to. -/
theorem shows_decode {n : Nat} {x : OrderVar} (hx : x.WellFormed n) {v : Valuation}
    (h : x.Staircase v) : x.Shows v (x.decode v.lit) := by
  obtain ⟨u, us, hv, hlen⟩ := hx.values_eq_cons
  have hasc := hx.ascending
  rw [hv] at hasc
  obtain ⟨hmem, hlits⟩ := decodeFrom_shown hasc hlen h
  have hdec : x.decode v.lit = decodeFrom v.lit u us x.lits := by
    rw [decode, hv]
  refine ⟨?_, ?_⟩
  · rw [hdec, hv]
    exact hmem
  · rw [hdec, hv]
    exact hlits

/-- The decoded value hangs on the truth of the literals. -/
theorem decodeFrom_congr {f g : Lit → Bool} {us : List Int} {ls : List Lit}
    (h : ∀ l ∈ ls, f l = g l) (u : Int) : decodeFrom f u us ls = decodeFrom g u us ls := by
  induction us generalizing u ls with
  | nil => rfl
  | cons w us ih =>
    cases ls with
    | nil => rfl
    | cons l ls =>
      rw [decodeFrom, decodeFrom, h l (by simp),
        ih (fun l' hl' => h l' (List.mem_cons_of_mem _ hl'))]

theorem decode_congr {x : OrderVar} {f g : Lit → Bool} (h : ∀ l ∈ x.lits, f l = g l) :
    x.decode f = x.decode g := by
  unfold decode
  split
  · rfl
  · exact decodeFrom_congr h _

/-! ### Encoding a variable -/

/-- Literals that compare with one value satisfy the chain. -/
theorem satisfies_chain_of_lits {v : Valuation} {k : Int} {us : List Int} {ls : List Lit}
    (hasc : us.Pairwise (· < ·)) (hlen : ls.length ≤ us.length)
    (hlits : ∀ p ∈ ls.zip us, v.lit p.1 = decide (k ≤ p.2)) : v.Satisfies (chain ls) := by
  induction us generalizing ls with
  | nil =>
    obtain rfl : ls = [] := List.length_eq_zero_iff.1 (Nat.le_zero.1 hlen)
    exact Valuation.satisfies_nil v
  | cons u us ih =>
    obtain ⟨hu, hasc'⟩ := List.pairwise_cons.1 hasc
    match ls, us, hlen, hlits with
    | [], _, _, _ => exact Valuation.satisfies_nil v
    | [l], _, _, _ => exact Valuation.satisfies_nil v
    | l :: m :: ls, w :: us, hlen, hlits =>
      have htail := ih hasc' (by simpa using hlen) fun p hp => hlits p (List.mem_cons_of_mem _ hp)
      have hl : v.lit l = decide (k ≤ u) := hlits (l, u) (by simp)
      have hm : v.lit m = decide (k ≤ w) := hlits (m, w) (by simp)
      have huw : u < w := hu w (by simp)
      rw [chain, Valuation.satisfies_cons]
      refine ⟨Valuation.clause_eq_true_iff.2 ?_, htail⟩
      -- Where the first literal of a clause is true, so is the second.
      by_cases hku : k ≤ u
      · exact ⟨m, by simp, by rw [hm, decide_eq_true]; omega⟩
      · exact ⟨l.not, by simp, by rw [Valuation.lit_not, hl, decide_eq_false hku]; rfl⟩

theorem below_chain {n : Nat} {ls : List Lit} (h : ∀ l ∈ ls, l.var < n) :
    ClausesBelow n (chain ls) := by
  fun_induction chain ls with
  | case1 a b rest ih =>
    intro c hc
    rcases List.mem_cons.1 hc with rfl | hc
    · intro l hl
      rcases List.mem_cons.1 hl with rfl | hl
      · exact h a (by simp)
      · rw [List.mem_singleton.1 hl]
        exact h b (by simp)
    · exact ih (fun l hl => h l (List.mem_cons_of_mem _ hl)) c hc
  | case2 ls _ => simp [ClausesBelow]

theorem growing_encode {ε : Type} (values : List Int) :
    Encoder.Growing (encode values : Encoder ε OrderVar) := by
  by_cases hempty : values.isEmpty = true
  · refine Encoder.growing_of_after_eq fun s => ?_
    simp only [Step.after, encode, hempty, ↓reduceIte]
  · simp only [encode, hempty, Bool.false_eq_true, ↓reduceIte]
    exact (Encoder.growing_newLits _).bind fun _ =>
      (Encoder.growing_addClauses _).bind fun _ => Encoder.growing_pure _

/-- The literals handed out one after the other are the next variables. -/
theorem newLits_eq_ok {ε : Type} {n : Nat} {s t : Cnf} {ls : List Lit}
    (h : (Encoder.newLits n : Encoder ε (List Lit)) s = .ok ls t)
    (hroom : t.next ≤ Lit.varLimit) :
    ls = (List.range' s.next n).map (fun i => ⟨i, false⟩) ∧
      t = { s with next := s.next + n } := by
  induction n generalizing s t ls with
  | zero =>
    obtain ⟨rfl, rfl⟩ := Step.pure_eq_ok.1 h
    simp
  | succ n ih =>
    obtain ⟨l, u, hl, h⟩ := Step.bind_eq_ok.1 h
    obtain ⟨rest, u', hrest, h⟩ := Step.bind_eq_ok.1 h
    obtain ⟨rfl, rfl⟩ := Step.pure_eq_ok.1 h
    obtain ⟨rfl, rfl⟩ := ih hrest hroom
    have hle : u.next ≤ u.next + n := Nat.le_add_right _ _
    obtain ⟨rfl, rfl⟩ := Encoder.newLit_eq_ok hl (hle.trans hroom)
    refine ⟨by simp [List.range'_succ], ?_⟩
    simp only [Cnf.mk.injEq, and_true]
    omega

/-- An encoded variable has the next literals, and the chain over them is all that is added. -/
theorem encode_eq_ok {ε : Type} {values : List Int} {s t : Cnf} {x : OrderVar}
    (h : (encode values : Encoder ε OrderVar) s = .ok x t) (hroom : t.next ≤ Lit.varLimit) :
    values ≠ [] ∧
      x = ⟨values, (List.range' s.next (values.length - 1)).map fun i => ⟨i, false⟩⟩ ∧
      t = ⟨s.next + (values.length - 1), s.clauses ++ (chain x.lits).toArray⟩ := by
  by_cases hempty : values.isEmpty = true
  · simp only [encode, hempty, ↓reduceIte] at h
    cases h
  simp only [encode, hempty, Bool.false_eq_true, ↓reduceIte] at h
  obtain ⟨ls, u, hls, h⟩ := Step.bind_eq_ok.1 h
  obtain ⟨_, u', hcl, h⟩ := Step.bind_eq_ok.1 h
  obtain ⟨rfl, rfl⟩ := Step.pure_eq_ok.1 h
  rw [Encoder.addClauses_eq_ok] at hcl
  subst hcl
  obtain ⟨rfl, rfl⟩ := newLits_eq_ok hls hroom
  exact ⟨by simpa using hempty, rfl, rfl⟩

/-- **Encoding.** The encoded variable is well formed over fresh literals; models are staircases,
and the fresh literals can be set to show any one of the values. -/
theorem encode_encodes {ε : Type} {values : List Int} (hasc : values.Pairwise (· < ·))
    {s t : Cnf} {x : OrderVar} (h : (encode values : Encoder ε OrderVar) s = .ok x t)
    (hroom : t.next ≤ Lit.varLimit) :
    x.values = values ∧ x.WellFormed t.next ∧
      ∀ k, Encodes s t x.Staircase (fun _ => k ∈ values) (x.Shows · k) := by
  have hg : s.Grows t := (growing_encode values).ok h
  obtain ⟨hne, rfl, rfl⟩ := encode_eq_ok h hroom
  have hpos : 0 < values.length := List.length_pos_iff.2 hne
  set ls : List Lit := (List.range' s.next (values.length - 1)).map fun i => ⟨i, false⟩ with hdef
  have hlen : ls.length + 1 = values.length := by
    simp only [hdef, List.length_map, List.length_range']
    omega
  have hbelow : ∀ l ∈ ls, l.var < s.next + (values.length - 1) := by
    intro l hl
    obtain ⟨i, hi, rfl⟩ := List.mem_map.1 hl
    rw [List.mem_range'_1] at hi
    exact hi.2
  refine ⟨rfl, ⟨hasc, hlen, ?_, hbelow⟩, fun k => ⟨hg, chain ls, by simp, below_chain hbelow,
    fun v hv => hv, fun v hk => ?_⟩⟩
  · intro l hl
    obtain ⟨i, -, rfl⟩ := List.mem_map.1 hl
    rfl
  -- The literal of place `i` is variable `s.next + i`.
  set w : Valuation := fun y =>
    if s.next ≤ y then decide (k ≤ values.getD (y - s.next) 0) else v y with hw
  have hshows : ∀ p ∈ ls.zip values, w.lit p.1 = decide (k ≤ p.2) := by
    intro p hp
    obtain ⟨i, hi, rfl⟩ := List.mem_iff_getElem.1 hp
    rw [List.length_zip] at hi
    have hi' : i < values.length := by omega
    simp [List.getElem_zip, hdef, hw, Valuation.lit, hi']
  refine ⟨w, fun y hy => ?_, satisfies_chain_of_lits hasc (by omega) hshows, hk, hshows⟩
  simp only [hw]
  rw [if_neg (Nat.not_le.2 hy)]

/-! ### Equalities -/

theorem growing_eqAtom {ε : Type} (x : OrderVar) (m : Int) :
    Encoder.Growing (x.eqAtom m : Encoder ε Atom) := by
  unfold eqAtom
  split
  · exact Encoder.growing_pure _
  · refine (Encoder.growing_checked _).bind fun g => ?_
    dsimp only
    split
    · exact Encoder.growing_pure _
    · exact Encoder.growing_pure _
    · exact Encoder.growing_pure _
    · exact Encoder.growing_newLit.bind fun _ =>
        (Encoder.growing_addClauses _).bind fun _ => Encoder.growing_pure _
    · exact Encoder.growing_pure _

/-- The clauses of an equality say that its literal is true exactly between its two neighbours. -/
theorem satisfies_between_iff {v : Valuation} {e l r : Lit} :
    v.Satisfies [[e.not, l], [e.not, r.not], [e, l.not, r]] ↔
      v.lit e = (v.lit l && !v.lit r) := by
  simp only [Valuation.satisfies_cons, Valuation.satisfies_nil, and_true, Valuation.clause,
    List.any_cons, List.any_nil, Valuation.lit_not, Bool.or_false]
  cases v.lit e <;> cases v.lit l <;> cases v.lit r <;> decide

/-- The definition of a fresh literal as "`l` and not `r`". -/
theorem between_encodes {ε : Type} {s t u : Cnf} {e l r : Lit} {x : Unit}
    (he : (Encoder.newLit : Encoder ε Lit) s = .ok e t)
    (hcl : (Encoder.addClauses [[e.not, l], [e.not, r.not], [e, l.not, r]] : Encoder ε Unit) t =
      .ok x u)
    (hroom : t.next ≤ Lit.varLimit) (hl : l.var < s.next) (hr : r.var < s.next)
    {p : Valuation → Prop} (hp : StableBelow s.next p) {b : Bool}
    (hb : ∀ v, p v → (v.lit l && !v.lit r) = b) :
    Encodes s u (fun v => p v → (Atom.lit e).eval v = b) p fun w => (Atom.lit e).eval w = b := by
  have hst : s.next ≤ t.next := (Encoder.growing_newLit.ok he).next_le
  have het : e.var < t.next := Encoder.newLit_below he hroom
  -- The fresh literal is set to what its clauses define it to be.
  have hnew := Encodes.newLit he hroom hp (fun v => v.lit l && !v.lit r)
    fun v w hvw => by rw [hvw.lit_eq hl, hvw.lit_eq hr]
  have hadd := Encodes.addClauses hcl (by
    intro c hc m hm
    simp only [List.mem_cons, List.not_mem_nil, or_false] at hc
    rcases hc with rfl | rfl | rfl <;> simp only [List.mem_cons, List.not_mem_nil, or_false] at hm
    · rcases hm with rfl | rfl
      · exact het
      · exact Nat.lt_of_lt_of_le hl hst
    · rcases hm with rfl | rfl
      · exact het
      · exact Nat.lt_of_lt_of_le hr hst
    · rcases hm with rfl | rfl | rfl
      · exact het
      · exact Nat.lt_of_lt_of_le hl hst
      · exact Nat.lt_of_lt_of_le hr hst)
  refine (hnew.trans hadd (fun v hv => satisfies_between_iff.2 hv.2) ?_).mono ?_ (fun v hv => hv) ?_
  · rintro v w hvw ⟨hv, htruth⟩
    refine ⟨hp v w (hvw.mono hst) hv, ?_⟩
    rw [hvw.lit_eq het, hvw.lit_eq (Nat.lt_of_lt_of_le hl hst),
      hvw.lit_eq (Nat.lt_of_lt_of_le hr hst), htruth]
  · rintro v ⟨-, hv⟩ hpv
    exact (satisfies_between_iff.1 hv).trans (hb v hpv)
  · rintro v ⟨⟨hpv, hv⟩, -⟩
    exact hv.trans (hb v hpv)

/-- The atom of an equality with one of the values is a constant or one of the two bounds, unless
both bounds are literals: then it is a fresh literal that is defined by them. -/
theorem eqAtom_of_ge {ε : Type} {x : OrderVar} {m : Int} {g : Atom}
    (hasc : x.values.Pairwise (· < ·)) (hm : m ∈ x.values) (hge : x.ge m = .ok g) :
    (∃ l r, x.le m = .lit l ∧ g.not = .lit r ∧ (x.eqAtom m : Encoder ε Atom) = do
      let e ← Encoder.newLit
      Encoder.addClauses [[e.not, l], [e.not, r.not], [e, l.not, r]]
      return .lit e) ∨
    ∃ a, (x.eqAtom m : Encoder ε Atom) = pure a ∧
      (a = .true ∨ a = .false ∨ a = x.le m ∨ a = g) ∧
      ∀ v, a.eval v = ((x.le m).eval v && g.eval v) := by
  obtain ⟨i, hi⟩ := (search_eq_ok_iff hasc).2 hm
  rw [eqAtom, hi, hge]
  cases x.le m <;> cases g
  case lit.lit l r => exact .inl ⟨l, r.not, rfl, rfl, rfl⟩
  all_goals exact .inr ⟨_, rfl, by simp, fun v => by simp [Atom.eval]⟩

/-- The atom of an equality with another number is the constant. -/
theorem eqAtom_of_notMem {ε : Type} {x : OrderVar} {m : Int} (hasc : x.values.Pairwise (· < ·))
    (hm : m ∉ x.values) : (x.eqAtom m : Encoder ε Atom) = pure .false := by
  cases hi : x.search m with
  | error i => rw [eqAtom, hi]
  | ok i => exact absurd ((search_eq_ok_iff hasc).1 ⟨i, hi⟩) hm

/-- **Equalities.** Where a value is shown, the atom is true exactly at that value; a fresh literal
of the atom can always be set so. -/
theorem eqAtom_encodes {ε : Type} {x : OrderVar} {m : Int} {s t : Cnf} {a : Atom}
    (h : (x.eqAtom m : Encoder ε Atom) s = .ok a t) (hx : x.WellFormed s.next)
    (hroom : t.next ≤ Lit.varLimit) :
    a.Below t.next ∧ ∀ k, Encodes s t (fun v => x.Shows v k → a.eval v = decide (k = m))
      (x.Shows · k) (fun w => a.eval w = decide (k = m)) := by
  by_cases hm : m ∈ x.values
  · obtain ⟨g, hge⟩ : ∃ g, x.ge m = .ok g := by
      obtain ⟨i, hi⟩ := (search_eq_ok_iff hx.ascending).2 hm
      rw [eqAtom, hi] at h
      obtain ⟨g, u, hcheck, -⟩ := Step.bind_eq_ok.1 h
      exact ⟨g, (Step.checked_eq_ok.1 hcheck).1⟩
    have hlb : (x.le m).Below s.next := below_le hx m
    have hgb : g.Below s.next := below_ge hx hge
    -- All cases rest on `k = m ↔ k ≤ m ∧ m ≤ k`.
    have hboth : ∀ v k, x.Shows v k → ((x.le m).eval v && g.eval v) = decide (k = m) := by
      intro v k hv
      rw [eval_le hx hv m, eval_ge hx hv hge, ← Bool.decide_and, decide_eq_decide]
      omega
    rcases eqAtom_of_ge hx.ascending hm hge with ⟨l, r, hl, hr, heq⟩ | ⟨a', heq, hcases, ha⟩
    · rw [heq] at h
      obtain ⟨e, u, he, h⟩ := Step.bind_eq_ok.1 h
      obtain ⟨_, u', hcl, h⟩ := Step.bind_eq_ok.1 h
      obtain ⟨rfl, rfl⟩ := Step.pure_eq_ok.1 h
      have hg : u.Grows u' := (Encoder.growing_addClauses _).ok hcl
      have hroom' : u.next ≤ Lit.varLimit := hg.next_le.trans hroom
      have hrb : (Atom.lit r).Below s.next := hr ▸ hgb.not
      have hgr : ∀ v, g.eval v = !(v.lit r) := by
        intro v
        rw [← Bool.not_not (g.eval v), ← Atom.eval_not, hr]
        rfl
      rw [hl] at hlb hboth
      refine ⟨Nat.lt_of_lt_of_le (Encoder.newLit_below he hroom') hg.next_le, fun k =>
        between_encodes he hcl hroom' hlb hrb (fun v w hvw hv => hv.congr hx hvw) fun v hv => ?_⟩
      rw [← hgr]
      exact hboth v k hv
    · rw [heq] at h
      obtain ⟨rfl, rfl⟩ := Step.pure_eq_ok.1 h
      have hab : a'.Below s.next := by
        rcases hcases with rfl | rfl | rfl | rfl
        · trivial
        · trivial
        · exact hlb
        · exact hgb
      exact ⟨hab, fun k => Encodes.refl s (fun v hv => (ha v).trans (hboth v k hv))
        fun v hv => (ha v).trans (hboth v k hv)⟩
  · rw [eqAtom_of_notMem hx.ascending hm] at h
    obtain ⟨rfl, rfl⟩ := Step.pure_eq_ok.1 h
    have hne : ∀ v k, x.Shows v k → Atom.false.eval v = decide (k = m) := by
      intro v k hv
      symm
      simp only [Atom.eval, decide_eq_false_iff_not]
      rintro rfl
      exact hm hv.mem
    exact ⟨trivial, fun k => Encodes.refl s (fun v hv => hne v k hv) fun v hv => hne v k hv⟩

end OrderVar

end WeightedCsp

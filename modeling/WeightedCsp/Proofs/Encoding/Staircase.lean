import WeightedCsp.Proofs.Encoding.Order
import WeightedCsp.Proofs.Encoding.Supply

/-!
# Order encodings are exact

On the literals of an order encoding, staircases and values are two names for the same thing: each
value is shown by one setting of the literals and by no other (`existsUnique_setting`).  So what
holds of every shown value holds of every staircase, with the value it decodes to.  `Exact` lists
what an encoded variable is used for in these terms, with the condition under which the arithmetic
of each use stays in its range, and `encode_exact` says that every encoded variable is of this
kind.
-/

namespace WeightedCsp

namespace OrderVar

variable {ε : Type} {n : Nat} {x : OrderVar} {v w : Valuation} {k m : Int} {s t : Cnf}

/-! ### Staircases and values -/

/-- A valuation shows one value at most. -/
theorem Shows.eq (hx : x.WellFormed n) {k' : Int} (h : x.Shows v k) (h' : x.Shows v k') :
    k = k' := by
  -- The atoms of upper bounds tell any two values apart.
  have hle : ∀ j, (k ≤ j ↔ k' ≤ j) := fun j => by
    rw [← decide_eq_decide, ← eval_le hx h, ← eval_le hx h']
  exact le_antisymm ((hle k').2 le_rfl) ((hle k).1 le_rfl)

/-- Where a value is shown, the clauses are true. -/
theorem Shows.staircase (hx : x.WellFormed n) (h : x.Shows v k) : x.Staircase v :=
  satisfies_chain_of_lits hx.ascending (by have := hx.length; omega) h.lits

/-- A value is shown where the clauses are true and the literals decode to it. -/
theorem shows_iff (hx : x.WellFormed n) : x.Shows v k ↔ x.Staircase v ∧ x.decode v.lit = k := by
  constructor
  · intro h
    have hstair := h.staircase hx
    exact ⟨hstair, (shows_decode hx hstair).eq hx h⟩
  · rintro ⟨hstair, rfl⟩
    exact shows_decode hx hstair

/-- The setting of the literals is settled by the shown value. -/
theorem Shows.map_lit (hx : x.WellFormed n) (h : x.Shows v k) :
    x.lits.map v.lit = (x.lits.zip x.values).map fun p => decide (k ≤ p.2) := by
  have hlen : x.lits.length ≤ x.values.length := by
    have := hx.length
    omega
  calc x.lits.map v.lit
      = ((x.lits.zip x.values).map Prod.fst).map v.lit := by rw [List.map_fst_zip hlen]
    _ = (x.lits.zip x.values).map (v.lit ∘ Prod.fst) := List.map_map
    _ = (x.lits.zip x.values).map fun p => decide (k ≤ p.2) := List.map_congr_left h.lits

/-- **One staircase for each value.** -/
theorem existsUnique_setting (hx : x.WellFormed n) (hk : ∃ v, x.Shows v k) :
    ∃! bs : List Bool, ∃ v : Valuation,
      x.lits.map v.lit = bs ∧ x.Staircase v ∧ x.decode v.lit = k := by
  obtain ⟨v, hv⟩ := hk
  refine ⟨x.lits.map v.lit, ⟨v, rfl, (shows_iff hx).1 hv⟩, ?_⟩
  rintro bs ⟨w, rfl, hw⟩
  rw [((shows_iff hx).2 hw).map_lit hx, hv.map_lit hx]

/-! ### Uses that stay in range -/

/-- A lower bound can be written if the value before it fits. -/
theorem exists_ge (hm : Word.InRange (m - 1)) : ∃ a, x.ge m = .ok a :=
  ⟨_, Checked.bind_eq_ok.2 ⟨m - 1, Word.fit_eq_ok_iff.2 ⟨hm, rfl⟩, rfl⟩⟩

/-- The steps of a variable can be written if each of them fits. -/
theorem exists_steps {us : List Int} (hus : us.IsChain fun u w => Word.InRange (w - u))
    (ls : List Lit) : ∃ ws, steps us ls = .ok ws := by
  fun_induction steps us ls with
  | case1 u w us l ls ih =>
    obtain ⟨hstep, hrest⟩ := List.isChain_cons_cons.1 hus
    obtain ⟨ws, hws⟩ := ih hrest
    exact ⟨_, Checked.bind_eq_ok.2 ⟨w - u, Word.fit_eq_ok_iff.2 ⟨hstep, rfl⟩,
      Checked.bind_eq_ok.2 ⟨ws, hws, rfl⟩⟩⟩
  | case2 us ls _ => exact ⟨[], rfl⟩

/-- The atom and the clauses that an equality with `m` comes to between the states `u` and `u'`. -/
structure Equates (x : OrderVar) (m : Int) (u u' : Cnf) (a : Atom) (new : List Clause) : Prop where
  /-- The clauses are appended. -/
  clauses : u'.clauses.toList = u.clauses.toList ++ new
  /-- With the clauses, the atom is true exactly where the variable is `m`. -/
  eval : ∀ v, x.Staircase v → v.Satisfies new → a.eval v = decide (x.decode v.lit = m)
  /-- A literal that was not there before is the next variable, for which the clauses leave exactly
  one value. -/
  fresh : u' = u ∨ u'.next = u.next + 1 ∧ a = .lit ⟨u.next, false⟩ ∧
    ∀ v, x.Staircase v → ∃! b, (v.update u.next b).Satisfies new

/-- A fresh literal that is defined by two older ones has one value. -/
theorem existsUnique_between {y : Nat} {l r : Lit} (hl : l.var < y) (hr : r.var < y)
    (v : Valuation) :
    ∃! b, (v.update y b).Satisfies [[Lit.not ⟨y, false⟩, l], [Lit.not ⟨y, false⟩, r.not],
      [⟨y, false⟩, l.not, r]] := by
  have hiff : ∀ b, (v.update y b).Satisfies [[Lit.not ⟨y, false⟩, l], [Lit.not ⟨y, false⟩, r.not],
      [⟨y, false⟩, l.not, r]] ↔ b = (v.lit l && !v.lit r) := by
    intro b
    have hagree := v.agreesBelow_update y b
    rw [satisfies_between_iff, hagree.lit_eq hl, hagree.lit_eq hr]
    simp [Valuation.lit]
  exact ⟨_, (hiff _).2 rfl, fun b hb => (hiff b).1 hb⟩

/-- What `eqAtom_encodes` says of a shown value, for the clauses of the run. -/
theorem eval_eqAtom (hx : x.WellFormed s.next) {a : Atom} {new : List Clause}
    (h : (x.eqAtom m : Encoder ε Atom) s = .ok a t) (hroom : t.next ≤ Lit.varLimit)
    (hnew : t.clauses.toList = s.clauses.toList ++ new) (hv : x.Staircase v)
    (hsat : v.Satisfies new) : a.eval v = decide (x.decode v.lit = m) := by
  obtain ⟨-, new', hnew', -, hforced, -⟩ := (eqAtom_encodes h hx hroom).2 (x.decode v.lit)
  obtain rfl : new = new' := List.append_cancel_left (hnew.symm.trans hnew')
  exact hforced v hsat (shows_decode hx hv)

/-- A fresh literal is made only between two order literals. -/
theorem eqAtom_shape (hx : x.WellFormed n) (hm : m ∈ x.values → Word.InRange (m - 1)) :
    (∃ a, (x.eqAtom m : Encoder ε Atom) = pure a) ∨
    ∃ l r, l.var < n ∧ r.var < n ∧ (x.eqAtom m : Encoder ε Atom) = do
      let e ← Encoder.newLit
      Encoder.addClauses [[e.not, l], [e.not, r.not], [e, l.not, r]]
      return .lit e := by
  by_cases hmem : m ∈ x.values
  · obtain ⟨g, hge⟩ := exists_ge (x := x) (hm hmem)
    rcases eqAtom_of_ge hx.ascending hmem hge with ⟨l, r, hl, hr, heq⟩ | ⟨a, heq, -⟩
    · have hlb : (Atom.lit l).Below n := hl ▸ below_le hx m
      have hrb : (Atom.lit r).Below n := hr ▸ (below_ge hx hge).not
      exact .inr ⟨l, r, hlb, hrb, heq⟩
    · exact .inl ⟨a, heq⟩
  · exact .inl ⟨.false, eqAtom_of_notMem hx.ascending hmem⟩

/-- **Equalities.** The atom is made if there is a variable for it and its lower bound can be
computed. -/
theorem eqAtom_equates (hx : x.WellFormed s.next) (hm : m ∈ x.values → Word.InRange (m - 1))
    (hroom : ((x.eqAtom m : Encoder ε Atom).after s).next ≤ Lit.varLimit) :
    ∃ a t new, (x.eqAtom m : Encoder ε Atom) s = .ok a t ∧ x.Equates m s t a new := by
  rcases eqAtom_shape (ε := ε) hx hm with ⟨a, heq⟩ | ⟨l, r, hl, hr, heq⟩
  · have hrun : (x.eqAtom m : Encoder ε Atom) s = .ok a s := by rw [heq]; rfl
    rw [Step.after_of_ok hrun] at hroom
    have hnil : s.clauses.toList = s.clauses.toList ++ [] := by simp
    exact ⟨a, s, [], hrun, hnil, fun v hv => eval_eqAtom hx hrun hroom hnil hv, .inl rfl⟩
  · -- Which variables the clauses speak of is read off the run; here only its success matters.
    have hends : Encoder.Ends Lit.varLimit (fun _ => True) (x.eqAtom m : Encoder ε Atom)
        fun _ => True := by
      rw [heq]
      exact Encoder.ends_newLit.bind (fun _ => (Encoder.growing_addClauses _).bind fun _ =>
        Encoder.growing_pure _) fun _ _ => (Encoder.ends_addClauses (by simp)).bind
          (fun _ => Encoder.growing_pure _) fun _ _ => Encoder.ends_pure trivial
    obtain ⟨a, t, hrun, -, -⟩ := hends.eq_ok (fun _ _ => trivial) hroom
    rw [Step.after_of_ok hrun] at hroom
    have h := hrun
    rw [heq] at h
    obtain ⟨e, s₁, he, h⟩ := Step.bind_eq_ok.1 h
    obtain ⟨_, s₂, hcl, h⟩ := Step.bind_eq_ok.1 h
    obtain ⟨rfl, rfl⟩ := Step.pure_eq_ok.1 h
    rw [Encoder.addClauses_eq_ok] at hcl
    subst hcl
    obtain ⟨rfl, rfl⟩ := Encoder.newLit_eq_ok he hroom
    refine ⟨_, _, _, hrun, by simp, fun v hv => eval_eqAtom hx hrun hroom (by simp) hv,
      .inr ⟨rfl, rfl, fun v _ => existsUnique_between hl hr v⟩⟩

/-! ### Exactness -/

/-- The variable can be used in place of the value that its literals stand for.  Fresh variables are
taken from `n` on. -/
structure Exact (n : Nat) (x : OrderVar) : Prop where
  /-- Every staircase stands for one of the values. -/
  decode_mem : ∀ v, x.Staircase v → x.decode v.lit ∈ x.values
  /-- Exactly one staircase stands for each value. -/
  setting : ∀ k ∈ x.values, ∃! bs : List Bool, ∃ v : Valuation,
    x.lits.map v.lit = bs ∧ x.Staircase v ∧ x.decode v.lit = k
  /-- Upper bounds, by values and by other numbers. -/
  le : ∀ m v, x.Staircase v → (x.le m).eval v = decide (x.decode v.lit ≤ m)
  /-- Lower bounds, unless the number below the bound is out of range. -/
  ge : ∀ m, Word.InRange (m - 1) → ∃ a, x.ge m = .ok a ∧
    ∀ v, x.Staircase v → a.eval v = decide (m ≤ x.decode v.lit)
  /-- The variable as a sum, unless a step from one value to the next is out of range. -/
  sum : (x.values.IsChain fun u w => Word.InRange (w - u)) → ∃ ws, x.weightedLits = .ok ws ∧
    ∀ v, x.Staircase v → x.lb + PseudoBoolean.total v ws = x.decode v.lit
  /-- Equalities in every later state, unless the number below the value is out of range. -/
  eqAtom : ∀ {ε : Type} (m : Int) (u : Cnf), n ≤ u.next → (m ∈ x.values → Word.InRange (m - 1)) →
    ((x.eqAtom m : Encoder ε Atom).after u).next ≤ Lit.varLimit →
    ∃ a u' new, (x.eqAtom m : Encoder ε Atom) u = .ok a u' ∧ x.Equates m u u' a new

/-- An encoding is exact if it is well formed and every value can be shown. -/
theorem exact_of_wellFormed (hx : x.WellFormed n) (hshows : ∀ k ∈ x.values, ∃ v, x.Shows v k) :
    x.Exact n where
  decode_mem _ hv := (shows_decode hx hv).mem
  setting k hk := existsUnique_setting hx (hshows k hk)
  le m _ hv := eval_le hx (shows_decode hx hv) m
  ge m hm := by
    obtain ⟨a, ha⟩ := exists_ge (x := x) hm
    exact ⟨a, ha, fun v hv => eval_ge hx (shows_decode hx hv) ha⟩
  sum hus := by
    obtain ⟨ws, hws⟩ := exists_steps hus x.lits
    exact ⟨ws, hws, fun v hv => lb_add_total hx (shows_decode hx hv) hws⟩
  eqAtom _ _ hu hm hroom := eqAtom_equates (hx.mono hu) hm hroom

/-- A variable with values is encoded until the pool is full. -/
theorem ends_encode {limit : Nat} {values : List Int} (hne : values ≠ []) :
    Encoder.Ends limit (fun _ => True) (encode values : Encoder ε OrderVar) fun _ => True := by
  have hempty : values.isEmpty = false := by simpa using hne
  simp only [encode, hempty, Bool.false_eq_true, ↓reduceIte]
  exact (Encoder.ends_newLits _).bind (fun _ => (Encoder.growing_addClauses _).bind fun _ =>
    Encoder.growing_pure _) fun _ _ => (Encoder.ends_addClauses (by simp)).bind
      (fun _ => Encoder.growing_pure _) fun _ _ => Encoder.ends_pure trivial

/-- **Order encodings are exact.** Ascending values of which there is at least one are encoded if
there are variables for them.  The literals are the next variables, their chain is all that is
added, and the encoded variable can be used in place of its value. -/
theorem encode_exact {values : List Int} (hne : values ≠ []) (hasc : values.Pairwise (· < ·))
    (hroom : ((encode values : Encoder ε OrderVar).after s).next ≤ Lit.varLimit) :
    ∃ x t, (encode values : Encoder ε OrderVar) s = .ok x t ∧ x.values = values ∧
      x.lits = (List.range' s.next (values.length - 1)).map (fun i => ⟨i, false⟩) ∧
      t = ⟨s.next + (values.length - 1), s.clauses ++ (chain x.lits).toArray⟩ ∧
      x.Exact t.next := by
  obtain ⟨x, t, hrun, -, -⟩ := (ends_encode hne).eq_ok (fun _ _ => trivial) hroom
  rw [Step.after_of_ok hrun] at hroom
  obtain ⟨hvalues, hx, hencodes⟩ := encode_encodes hasc hrun hroom
  have hshows : ∀ k ∈ x.values, ∃ v, x.Shows v k := by
    intro k hk
    rw [hvalues] at hk
    obtain ⟨-, new, -, -, -, hgiven⟩ := hencodes k
    -- The literals are fresh, so it does not matter from which valuation one starts.
    obtain ⟨v, -, -, hv⟩ := hgiven (fun _ => false) hk
    exact ⟨v, hv⟩
  have hexact := exact_of_wellFormed hx hshows
  obtain ⟨-, rfl, rfl⟩ := encode_eq_ok hrun hroom
  exact ⟨_, _, hrun, rfl, rfl, rfl, hexact⟩

theorem encode_exact_gaps :
    ∃ x t, (encode [1, 3, 4, 8] : Encoder EncodingError OrderVar) ⟨2, #[]⟩ = .ok x t ∧
      x.Exact t.next ∧ (∃ a, x.ge 2 = .ok a) ∧ (∃ ws, x.weightedLits = .ok ws) ∧
      ∃ a u new, (x.eqAtom 4 : Encoder EncodingError Atom) t = .ok a u ∧
        x.Equates 4 t u a new := by
  obtain ⟨⟨values, lits⟩, t, hrun, hvalues, hlits, ht, hexact⟩ :=
    encode_exact (ε := EncodingError) (s := ⟨2, #[]⟩)
      (show ([1, 3, 4, 8] : List Int) ≠ [] by decide) (by decide) (by cbv)
  simp only at hvalues hlits ht
  subst hvalues hlits ht
  obtain ⟨a, ha, -⟩ := hexact.ge 2 (by decide)
  obtain ⟨ws, hws, -⟩ := hexact.sum (by decide)
  exact ⟨_, _, hrun, hexact, ⟨a, ha⟩, ⟨ws, hws⟩,
    hexact.eqAtom 4 _ (Nat.le_refl _) (by decide) (by cbv)⟩

end OrderVar

end WeightedCsp

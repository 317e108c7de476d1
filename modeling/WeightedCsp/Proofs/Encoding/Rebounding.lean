import WeightedCsp.Proofs.Encoding.Supply

/-!
# Changing the bound of a totalizer

A totalizer can be encoded for one bound after the other.  Every bound that differs from the latest
one gets a tree of its own with a cap of its own, and the clauses of the trees before it stay where
they are.  They do no harm, because nothing but fresh variables depends on them: whatever the inputs
are, the outputs of each tree can be set to what the inputs reach.

`Standing s u t` says what is known of a totalizer `t` at the state `u`, counted from the state `s`
before its first encoding.  One encoding keeps it (`Standing.encode`), so any number of them does
(`Standing.foldlM`), and after the last one the units of the last bound enforce exactly that bound
(`rebound_expresses`).
-/

namespace WeightedCsp

/-- Two accounts of the same clauses, each for the valuations that it wants. -/
theorem Encodes.either {s t : Cnf} {p q r p' q' r' : Valuation → Prop} (h₁ : Encodes s t p q r)
    (h₂ : Encodes s t p' q' r') :
    Encodes s t p (fun v => q v ∨ q' v) fun v => r v ∨ r' v := by
  obtain ⟨hg, new, hnew, hbelow, hforced, hgiven₁⟩ := h₁
  obtain ⟨-, new', hnew', -, -, hgiven₂⟩ := h₂
  obtain rfl : new = new' := List.append_cancel_left (hnew.symm.trans hnew')
  refine ⟨hg, new, hnew, hbelow, hforced, ?_⟩
  rintro v (hv | hv)
  · obtain ⟨w, hvw, hw, hr⟩ := hgiven₁ v hv
    exact ⟨w, hvw, hw, .inl hr⟩
  · obtain ⟨w, hvw, hw, hr⟩ := hgiven₂ v hv
    exact ⟨w, hvw, hw, .inr hr⟩

namespace Totalizer

variable {ε : Type} {s u u' : Cnf} {t t' : Totalizer} {bound : Nat}

/-- Units are given for the last bound only. -/
theorem bound_of_enforce {units : List Lit} (h : t.enforce bound = .ok units) :
    t.bound = some bound := by
  unfold enforce at h
  split_ifs at h with hb
  exact hb

/-- What is known of a totalizer that was encoded for some bounds since the state `s`. -/
structure Standing (s u : Cnf) (t : Totalizer) : Prop where
  /-- The inputs were there before the first encoding. -/
  inputs : ∀ i ∈ t.inputs, i.1.var < s.next
  /-- The outputs are variables in use. -/
  outputs : ∀ o ∈ t.outputs, o.2.var < u.next
  /-- Every valuation of the inputs goes with all clauses so far; the units of the latest bound are
  true in no model in which the inputs pass it, and can be true where they do not. -/
  encodes : Encodes s u
    (fun v => ∀ b units, t.enforce b = .ok units → (∀ l ∈ units, v.lit l = true) →
      weightOf v t.inputs ≤ b)
    (fun _ => True)
    fun v => ∀ b units, t.enforce b = .ok units → weightOf v t.inputs ≤ b →
      ∀ l ∈ units, v.lit l = true

/-- A new totalizer stands, before any bound. -/
theorem standing_ofInputs {inputs : List WeightedLit} (hin : ∀ i ∈ inputs, i.1.var < s.next) :
    Standing s s (ofInputs inputs) :=
  ⟨hin, by simp [ofInputs],
    Encodes.refl s (by simp [enforce, ofInputs]) (by simp [enforce, ofInputs])⟩

/-- A tree for a new bound, counted from where it was begun. -/
theorem standing_encode (hb : t.bound ≠ some bound)
    (h : (t.encode bound : Encoder ε Totalizer) u = .ok t' u') (hroom : u'.next ≤ Lit.varLimit)
    (hin : ∀ i ∈ t.inputs, i.1.var < u.next) : Standing u u' t' := by
  obtain ⟨hinputs, hbound, hrun⟩ := encode_eq_ok hb h
  rw [← hinputs] at hrun hin
  obtain ⟨units, hunits⟩ := enforce_of_bound hbound
  have hsub : ∀ i ∈ treeInputs bound t'.inputs, i.1.var < u.next := fun i hi =>
    hin i (List.mem_filter.1 ((perm_treeInputs bound t'.inputs).mem_iff.1 hi)).1
  obtain ⟨houtputs, htree⟩ := encodeInputs_encodes hrun hroom hsub
  obtain ⟨-, henforce⟩ := enforce_encodes hbound hrun hunits hroom hin
  have hstable : StableBelow u.next fun v => ¬ weightOf v t'.inputs ≤ bound := by
    intro v w hvw hv
    rwa [weightOf_congr hin hvw]
  -- Inputs that keep the bound go with the units, all others with the clauses alone.
  refine ⟨hin, houtputs, (henforce.either (htree.frame hstable)).mono ?_ ?_ ?_⟩
  · intro v hv b units' hunits'
    obtain rfl : bound = b := Option.some.inj (hbound.symm.trans (bound_of_enforce hunits'))
    obtain rfl : units = units' := Except.ok.inj (hunits.symm.trans hunits')
    exact hv
  · intro v _
    exact (em (weightOf v t'.inputs ≤ bound)).imp_right fun hgt => ⟨trivial, hgt⟩
  · intro v hv b units' hunits' hle
    obtain rfl : bound = b := Option.some.inj (hbound.symm.trans (bound_of_enforce hunits'))
    obtain rfl : units = units' := Except.ok.inj (hunits.symm.trans hunits')
    rcases hv with hv | ⟨-, hgt⟩
    · exact hv
    · exact absurd hle hgt

/-- **One encoding.** The older clauses can be left to themselves. -/
theorem Standing.encode (ht : Standing s u t)
    (h : (t.encode bound : Encoder ε Totalizer) u = .ok t' u') (hroom : u'.next ≤ Lit.varLimit) :
    Standing s u' t' ∧ t'.inputs = t.inputs ∧ t'.bound = some bound := by
  by_cases hb : t.bound = some bound
  · -- The tree of the latest bound is still there.
    rw [Totalizer.encode, if_pos hb] at h
    obtain ⟨rfl, rfl⟩ := Step.pure_eq_ok.1 h
    exact ⟨ht, rfl, hb⟩
  · obtain ⟨hinputs, hbound, -⟩ := encode_eq_ok hb h
    have hnew := standing_encode hb h hroom fun i hi =>
      Nat.lt_of_lt_of_le (ht.inputs i hi) ht.encodes.grows.next_le
    -- Of the older trees only this is kept: they can be satisfied whatever the inputs are.
    have hold : Encodes s u (fun _ => True) (fun _ => True) fun _ => True :=
      ht.encodes.mono (fun _ _ => trivial) (fun _ h => h) fun _ _ => trivial
    refine ⟨⟨by rw [hinputs]; exact ht.inputs, hnew.outputs, ?_⟩, hinputs, hbound⟩
    exact (hold.trans hnew.encodes (fun _ h => h) fun _ _ _ _ => trivial).mono (fun _ h => h.2)
      (fun _ h => h) fun _ h => h.2

/-- **Any number of encodings.** The totalizer stands, for the last of the bounds. -/
theorem Standing.foldlM {bounds : List Nat} (ht : Standing s u t)
    (h : (bounds.foldlM Totalizer.encode t : Encoder ε Totalizer) u = .ok t' u')
    (hroom : u'.next ≤ Lit.varLimit) :
    Standing s u' t' ∧ t'.inputs = t.inputs ∧ t'.bound = bounds.getLast?.or t.bound := by
  -- The start `s` stays the same, the state `u` and the totalizer move on with every bound.
  induction bounds generalizing u t with
  | nil =>
    obtain ⟨rfl, rfl⟩ := Step.pure_eq_ok.1 h
    exact ⟨ht, rfl, rfl⟩
  | cons b bounds ih =>
    rw [List.foldlM_cons] at h
    obtain ⟨t₁, u₁, hfirst, hrest⟩ := Step.bind_eq_ok.1 h
    have hle : u₁.next ≤ u'.next :=
      ((Encoder.growing_foldlM growing_encode bounds t₁).ok hrest).next_le
    obtain ⟨ht₁, hinputs₁, hbound₁⟩ := ht.encode hfirst (hle.trans hroom)
    obtain ⟨ht', hinputs, hbound⟩ := ih ht₁ hrest
    refine ⟨ht', hinputs.trans hinputs₁, ?_⟩
    rw [hbound, hbound₁, List.getLast?_cons]
    cases bounds.getLast? <;> rfl

/-- With the units of its latest bound, a totalizer says that the inputs keep that bound. -/
theorem Standing.withUnits (ht : Standing s u t) {units : List Lit}
    (h : t.enforce bound = .ok units) :
    Encodes s (u.withUnits units) (weightOf · t.inputs ≤ bound) (weightOf · t.inputs ≤ bound)
      fun _ => True := by
  have hover : t.Over (· < u.next) :=
    ⟨fun i hi => Nat.lt_of_lt_of_le (ht.inputs i hi) ht.encodes.grows.next_le, ht.outputs⟩
  have hstable : StableBelow s.next fun v => weightOf v t.inputs ≤ bound := by
    intro v w hvw hv
    rwa [weightOf_congr ht.inputs hvw]
  have hunits : Encodes s u (fun v => (∀ l ∈ units, v.lit l = true) → weightOf v t.inputs ≤ bound)
      (weightOf · t.inputs ≤ bound) fun v => ∀ l ∈ units, v.lit l = true :=
    (ht.encodes.frame hstable).mono (fun v hv => hv bound units h) (fun _ hv => ⟨trivial, hv⟩)
      fun v hv => hv.1 bound units h hv.2
  exact (hunits.withUnits (hover.enforce h)).mono (fun _ hv => hv.1 hv.2) (fun _ hv => hv)
    fun _ _ => trivial

/-- **Totalizers stay exact.** A totalizer can be encoded for one bound after the other, as long as
their doubles fit and there are variables.  Every valuation of the inputs goes with all the clauses
that were made.  Together with the units of the last bound, exactly the valuations in which the true
inputs weigh at most that bound do, and units are given for no other bound. -/
theorem rebound_expresses {inputs : List WeightedLit} {bounds : List Nat}
    (hin : ∀ i ∈ inputs, i.1.var < s.next) (hfit : ∀ b ∈ bounds, 2 * (b + 1) < Word.sizeLimit)
    (hroom : ((bounds.foldlM encode (ofInputs inputs) : Encoder ε Totalizer).after s).next ≤
      Lit.varLimit) :
    ∃ t u, (bounds.foldlM encode (ofInputs inputs) : Encoder ε Totalizer) s = .ok t u ∧
      s.Expresses (inputs.map (·.1.var)) (fun _ => True) u ∧
      (∀ b, bounds.getLast? = some b → ∃ units, t.enforce b = .ok units ∧
        s.Expresses (inputs.map (·.1.var)) (weightOf · inputs ≤ b) (u.withUnits units)) ∧
      ∀ k, bounds.getLast? ≠ some k → t.enforce k = .error .notEncoded := by
  have hover : (ofInputs inputs).Over fun y => y ∈ inputs.map (·.1.var) ∨ s.next ≤ y :=
    ⟨fun i hi => .inl (List.mem_map.2 ⟨i, hi, rfl⟩), by simp [ofInputs]⟩
  have hends : Encoder.Ends Lit.varLimit (fun y => y ∈ inputs.map (·.1.var) ∨ s.next ≤ y)
      (bounds.foldlM encode (ofInputs inputs) : Encoder ε Totalizer)
      (Over fun y => y ∈ inputs.map (·.1.var) ∨ s.next ≤ y) :=
    Encoder.ends_foldlM growing_encode
      (fun b hb t ht => (ends_encode ht (hfit b hb)).mono fun _ ht' => ht'.1) hover
  obtain ⟨t, u, hrun, ht, hadds⟩ := hends.eq_ok (fun y hy => .inr hy) hroom
  rw [Step.after_of_ok hrun] at hroom
  obtain ⟨hstanding, hinputs, hbound⟩ := (standing_ofInputs hin).foldlM hrun hroom
  have hlast : t.bound = bounds.getLast? := by rw [hbound]; exact Option.or_none
  replace hinputs : t.inputs = inputs := hinputs
  refine ⟨t, u, hrun, Cnf.expresses_of_encodes hstanding.encodes (fun _ _ _ _ => trivial) hadds,
    fun b hb => ?_, fun k hk => if_neg (by rwa [hlast])⟩
  obtain ⟨units, hunits⟩ := enforce_of_bound (hlast.trans hb)
  refine ⟨units, hunits, ?_⟩
  have hencodes := hstanding.withUnits hunits
  rw [hinputs] at hencodes
  refine Cnf.expresses_of_encodes hencodes (fun v w hvw hw => ?_)
    (hadds.trans (.withUnits (ht.enforce hunits)))
  rwa [weightOf_congr hin hvw] at hw

/-- Inputs with a weight of zero and a repeated and a complementary literal. -/
def mixedInputs : List WeightedLit :=
  [(⟨0, false⟩, 2), (⟨1, true⟩, 0), (⟨0, false⟩, 3), (⟨0, true⟩, 1), (⟨2, false⟩, 6)]

theorem rebound_expresses_mixedInputs :
    ∃ t u, ([4, 7, 7, 4].foldlM encode (ofInputs mixedInputs) : Encoder EncodingError Totalizer)
        ⟨3, #[]⟩ = .ok t u ∧
      Cnf.Expresses (mixedInputs.map (·.1.var)) (fun _ => True) ⟨3, #[]⟩ u ∧
      (∃ units, t.enforce 4 = .ok units ∧
        Cnf.Expresses (mixedInputs.map (·.1.var)) (weightOf · mixedInputs ≤ 4) ⟨3, #[]⟩
          (u.withUnits units)) ∧
      t.enforce 7 = .error .notEncoded := by
  obtain ⟨t, u, hrun, hfree, hlast, hother⟩ :=
    rebound_expresses (ε := EncodingError) (s := ⟨3, #[]⟩)
      (show ∀ i ∈ mixedInputs, i.1.var < 3 by decide)
      (show ∀ b ∈ [4, 7, 7, 4], 2 * (b + 1) < Word.sizeLimit by decide) (by cbv)
  exact ⟨t, u, hrun, hfree, hlast 4 rfl, hother 7 (by decide)⟩

end Totalizer

end WeightedCsp

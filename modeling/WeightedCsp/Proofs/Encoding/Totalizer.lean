import Mathlib.Algebra.BigOperators.Group.List.Basic
import Mathlib.Algebra.Order.BigOperators.Group.List
import WeightedCsp.Encoding.Totalizer
import WeightedCsp.Proofs.Encoding.Growth

/-!
# Correctness of the totalizer

A node of the tree offers outputs for the sums its inputs can reach.  In every model, the output
of the sum that is reached is true (`Tree.encode_encodes`, first half); and the outputs can be set
so that a true output is always a sum that is reached or passed (second half).  The clauses of a
node are a list of `Job`s, each of which says that some literals together imply an output; the
three loops of a node are runs over different jobs, so one step lemma (`output_step`) serves them
all.
-/

namespace WeightedCsp.Totalizer

variable {ε : Type}

/-! ### Sums of weights -/

/-- The sum of the weights of the true inputs. -/
def weightOf (v : Valuation) (inputs : List WeightedLit) : Nat :=
  (inputs.map fun i => if v.lit i.1 then i.2 else 0).sum

@[simp]
theorem weightOf_nil (v : Valuation) : weightOf v [] = 0 := rfl

@[simp]
theorem weightOf_cons (v : Valuation) (i : WeightedLit) (inputs : List WeightedLit) :
    weightOf v (i :: inputs) = (if v.lit i.1 then i.2 else 0) + weightOf v inputs := by
  simp [weightOf]

@[simp]
theorem weightOf_append (v : Valuation) (as bs : List WeightedLit) :
    weightOf v (as ++ bs) = weightOf v as + weightOf v bs := by
  simp [weightOf]

/-- The weight hangs on the variables of the inputs only. -/
theorem weightOf_congr {n : Nat} {inputs : List WeightedLit} (h : ∀ i ∈ inputs, i.1.var < n)
    {v w : Valuation} (hvw : v.AgreesBelow n w) : weightOf w inputs = weightOf v inputs := by
  induction inputs with
  | nil => rfl
  | cons i inputs ih =>
    rw [weightOf_cons, weightOf_cons, hvw.lit_eq (h i (by simp)),
      ih fun j hj => h j (List.mem_cons_of_mem _ hj)]

theorem weightOf_perm {as bs : List WeightedLit} (h : as.Perm bs) (v : Valuation) :
    weightOf v as = weightOf v bs :=
  (h.map _).sum_eq

theorem weightOf_eq_zero {v : Valuation} {inputs : List WeightedLit}
    (h : ¬ ∃ i ∈ inputs, v.lit i.1 = true) : weightOf v inputs = 0 := by
  induction inputs with
  | nil => rfl
  | cons i inputs ih =>
    have hi : v.lit i.1 ≠ true := fun ht => h ⟨i, by simp, ht⟩
    rw [weightOf_cons, if_neg hi, ih fun ⟨j, hj, ht⟩ => h ⟨j, List.mem_cons_of_mem _ hj, ht⟩]

theorem weightOf_eq_sum {v : Valuation} {inputs : List WeightedLit}
    (h : ∀ i ∈ inputs, v.lit i.1 = true) : weightOf v inputs = (inputs.map (·.2)).sum :=
  congrArg List.sum (List.map_congr_left fun i hi => if_pos (h i hi))

theorem le_weightOf_of_mem {v : Valuation} {inputs : List WeightedLit} {i : WeightedLit}
    (hi : i ∈ inputs) (ht : v.lit i.1 = true) : i.2 ≤ weightOf v inputs := by
  refine List.single_le_sum (by simp) _ (List.mem_map.2 ⟨i, hi, ?_⟩)
  rw [if_pos ht]

/-- A condition splits the weight in two. -/
theorem weightOf_filter_add (p : WeightedLit → Bool) (v : Valuation)
    (inputs : List WeightedLit) :
    weightOf v (inputs.filter p) + weightOf v (inputs.filter fun i => !p i) =
      weightOf v inputs := by
  rw [← weightOf_append]
  exact weightOf_perm (List.filter_append_perm p inputs) v

/-! ### Jobs -/

/-- Some literals together imply the output of a sum. -/
abbrev Job : Type := List Lit × Nat

/-- Each output of the node is true exactly when the node's sum reaches it. -/
def Explained (sum : Valuation → Nat) (sums : Sums) (v : Valuation) : Prop :=
  ∀ (k : Nat) (l : Lit), sums[k]? = some l → v.lit l = decide (k ≤ sum v)

/-- The outputs of the node are variables below `n`. -/
def SumsBelow (n : Nat) (sums : Sums) : Prop := ∀ (k : Nat) (l : Lit), sums[k]? = some l → l.var < n

/-- The sum of the node hangs on variables below `n`. -/
def SumBelow (n : Nat) (sum : Valuation → Nat) : Prop :=
  ∀ v w : Valuation, v.AgreesBelow n w → sum w = sum v

/-- Whether outputs are explained hangs on variables that exist. -/
theorem Explained.stable {n : Nat} {sum : Valuation → Nat} {sums : Sums} (hsum : SumBelow n sum)
    (hsums : SumsBelow n sums) : StableBelow n (Explained sum sums) := by
  intro v w hvw h k l hl
  rw [hvw.lit_eq (hsums k l hl), h k l hl, hsum v w hvw]

/-- All premises of the job are true. -/
def Fires (v : Valuation) (job : Job) : Prop := ∀ p ∈ job.1, v.lit p = true

/-- No job that fires promises more than the sum of the node. -/
def Modest (sum : Valuation → Nat) (jobs : List Job) (v : Valuation) : Prop :=
  ∀ job ∈ jobs, Fires v job → job.2 ≤ sum v

/-- The premises of the jobs are variables below `n`. -/
def JobsBelow (n : Nat) (jobs : List Job) : Prop := ∀ job ∈ jobs, ∀ p ∈ job.1, p.var < n

theorem Fires.congr {n : Nat} {job : Job} (h : ∀ p ∈ job.1, p.var < n) {v w : Valuation}
    (hvw : v.AgreesBelow n w) (hw : Fires w job) : Fires v job := by
  intro p hp
  rw [← hvw.lit_eq (h p hp)]
  exact hw p hp

/-- Whether jobs are modest hangs on variables that exist. -/
theorem Modest.stable {n : Nat} {sum : Valuation → Nat} {jobs : List Job} (hsum : SumBelow n sum)
    (hjobs : JobsBelow n jobs) : StableBelow n (Modest sum jobs) := by
  intro v w hvw h job hjob hw
  rw [hsum v w hvw]
  exact h job hjob (hw.congr (hjobs job hjob) hvw)

/-- A part of a node's work: outputs are added for the jobs, in models every job that fires makes
its output true, and as long as jobs are modest the outputs can be explained. -/
structure Works (sum : Valuation → Nat) (jobs : List Job) (s : Cnf) (sums : Sums) (t : Cnf)
    (sums' : Sums) : Prop where
  /-- Outputs stay. -/
  keeps : ∀ (k : Nat) (l : Lit), sums[k]? = some l → sums'[k]? = some l
  /-- Outputs are variables in use. -/
  below : SumsBelow t.next sums'
  /-- What the clauses mean. -/
  encodes : Encodes s t
    (fun v => ∀ job ∈ jobs, Fires v job → ∃ o, sums'[job.2]? = some o ∧ v.lit o = true)
    (fun v => Explained sum sums v ∧ Modest sum jobs v) (Explained sum sums')

theorem Works.refl {sum : Valuation → Nat} {s : Cnf} {sums : Sums}
    (h : SumsBelow s.next sums) : Works sum [] s sums s sums :=
  ⟨fun _ _ h => h, h, Encodes.refl s (by simp) fun _ hv => hv.1⟩

/-- Work on one list of jobs, then on another, is work on both. -/
theorem Works.trans {sum : Valuation → Nat} {jobs jobs' : List Job} {s t u : Cnf}
    {sums sums' sums'' : Sums} (h₁ : Works sum jobs s sums t sums')
    (h₂ : Works sum jobs' t sums' u sums'') (hsum : SumBelow s.next sum)
    (hjobs : JobsBelow s.next jobs') : Works sum (jobs ++ jobs') s sums u sums'' := by
  have hst := h₁.encodes.grows.next_le
  have hsum' : SumBelow t.next sum := fun v w hvw => hsum v w (hvw.mono hst)
  refine ⟨fun k l hl => h₂.keeps k l (h₁.keeps k l hl), h₂.below, ?_⟩
  have hframe := h₁.encodes.frame (Modest.stable hsum hjobs)
  refine (hframe.trans h₂.encodes (fun v hv => hv) ?_).mono ?_ ?_ fun v hv => hv.2
  · exact (Explained.stable hsum' h₁.below).and ((Modest.stable hsum hjobs).mono hst)
  · rintro v ⟨hv, hv'⟩ job hjob hfire
    rcases List.mem_append.1 hjob with hjob | hjob
    · obtain ⟨o, ho, ht⟩ := hv job hjob hfire
      exact ⟨o, h₂.keeps _ o ho, ht⟩
    · exact hv' job hjob hfire
  · rintro v ⟨hexp, hmod⟩
    exact ⟨⟨hexp, fun job hjob => hmod job (List.mem_append_left _ hjob)⟩,
      fun job hjob => hmod job (List.mem_append_right _ hjob)⟩

/-! ### One output -/

theorem growing_output (sums : Sums) (k : Nat) :
    Encoder.Growing (output sums k : Encoder ε (Lit × Sums)) := by
  unfold output
  split
  · exact Encoder.growing_pure _
  · exact Encoder.growing_newLit.bind fun _ => Encoder.growing_pure _

/-- The literal of a sum is found or made. -/
theorem output_encodes {sum : Valuation → Nat} {sums sums' : Sums} {k : Nat} {s t : Cnf} {o : Lit}
    (h : (output sums k : Encoder ε (Lit × Sums)) s = .ok (o, sums') t)
    (hroom : t.next ≤ Lit.varLimit) (hsum : SumBelow s.next sum) (hsums : SumsBelow s.next sums) :
    sums'[k]? = some o ∧ Works sum [] s sums t sums' := by
  unfold output at h
  cases hk : sums[k]? with
  | some l =>
    simp only [hk] at h
    obtain ⟨⟨⟩, rfl⟩ := Step.pure_eq_ok.1 h
    exact ⟨hk, Works.refl hsums⟩
  | none =>
    simp only [hk] at h
    obtain ⟨l, u, hl, h'⟩ := Step.bind_eq_ok.1 h
    obtain ⟨⟨⟩, rfl⟩ := Step.pure_eq_ok.1 h'
    have hg : s.Grows u := Encoder.growing_newLit.ok hl
    -- An entry is the new one or was there before.
    have hentry : ∀ (j : Nat) (m : Lit), (sums.insert k o)[j]? = some m →
        (j = k ∧ m = o) ∨ sums[j]? = some m := by
      intro j m hj
      rw [Std.TreeMap.getElem?_insert] at hj
      split_ifs at hj with hjk
      · cases hj
        exact .inl ⟨(Nat.compare_eq_eq.1 hjk).symm, rfl⟩
      · exact .inr hj
    refine ⟨Std.TreeMap.getElem?_insert_self, fun j m hj => ?_, fun j m hj => ?_, ?_⟩
    · rw [Std.TreeMap.getElem?_insert]
      split_ifs with hjk
      · rw [Nat.compare_eq_eq.1 hjk, hj] at hk
        cases hk
      · exact hj
    · rcases hentry j m hj with ⟨-, rfl⟩ | hj
      · exact Encoder.newLit_below hl hroom
      · exact Nat.lt_of_lt_of_le (hsums j m hj) hg.next_le
    · -- The new literal is set to whether the sum is reached.
      have hnew := Encodes.newLit hl hroom (Explained.stable hsum hsums)
        (fun v => decide (k ≤ sum v)) fun v w hvw => by rw [hsum v w hvw]
      refine hnew.mono (by simp) (fun v hv => hv.1) ?_
      rintro w ⟨hexp, ho⟩ j m hj
      rcases hentry j m hj with ⟨rfl, rfl⟩ | hj
      · exact ho
      · exact hexp j m hj

/-- **One job.** The literal of the sum, and the clause that the premises imply it. -/
theorem output_step {sum : Valuation → Nat} {sums sums' : Sums} {job : Job} {s t u : Cnf} {o : Lit}
    {c : Clause} {x : Unit}
    (h : (output sums job.2 : Encoder ε (Lit × Sums)) s = .ok (o, sums') t)
    (hc : (Encoder.addClause c : Encoder ε Unit) t = .ok x u)
    (hclause : c = job.1.map Lit.not ++ [o]) (hroom : u.next ≤ Lit.varLimit)
    (hsum : SumBelow s.next sum) (hsums : SumsBelow s.next sums)
    (hjob : ∀ p ∈ job.1, p.var < s.next) : Works sum [job] s sums u sums' := by
  have htu : t.Grows u := (Encoder.growing_addClause c).ok hc
  have hst : s.Grows t := (growing_output sums job.2).ok h
  obtain ⟨hout, hw⟩ := output_encodes h (htu.next_le.trans hroom) hsum hsums
  have hsum' : SumBelow t.next sum := fun v w hvw => hsum v w (hvw.mono hst.next_le)
  have hmem : ∀ l ∈ c, (∃ p ∈ job.1, p.not = l) ∨ l = o := by
    intro l hl
    rw [hclause, List.mem_append, List.mem_map, List.mem_singleton] at hl
    exact hl
  have hbelow : ∀ l ∈ c, l.var < t.next := by
    intro l hl
    rcases hmem l hl with ⟨p, hp, rfl⟩ | rfl
    · exact Nat.lt_of_lt_of_le (hjob p hp) hst.next_le
    · exact hw.below _ _ hout
  have hmodest : StableBelow s.next (Modest sum [job]) :=
    Modest.stable hsum (by simpa [JobsBelow] using hjob)
  refine ⟨hw.keeps, fun k l hl => Nat.lt_of_lt_of_le (hw.below k l hl) htu.next_le, ?_⟩
  refine ((hw.encodes.frame hmodest).trans (Encodes.addClause hc hbelow) ?_ ?_).mono ?_ ?_ ?_
  · -- Set the outputs as explained; then the clause of a modest job is true.
    rintro v ⟨hexp, hmod⟩
    rw [Valuation.clause_eq_true_iff, hclause]
    by_cases hfire : Fires v job
    · refine ⟨o, by simp, ?_⟩
      rw [hexp _ _ hout, decide_eq_true (hmod job (by simp) hfire)]
    · have hp : ∃ p ∈ job.1, v.lit p ≠ true := by simpa [Fires] using hfire
      obtain ⟨p, hp, hf⟩ := hp
      refine ⟨p.not, List.mem_append_left _ (List.mem_map_of_mem hp), ?_⟩
      rw [Valuation.lit_not, Bool.eq_false_of_not_eq_true hf]
      rfl
  · exact (Explained.stable hsum' hw.below).and (hmodest.mono hst.next_le)
  · -- Where the premises are true, only the output can make the clause true.
    rintro v ⟨-, hv⟩ job' hjob' hfire
    rw [List.mem_singleton.1 hjob'] at hfire ⊢
    obtain ⟨l, hl, ht⟩ := Valuation.clause_eq_true_iff.1 hv
    rcases hmem l hl with ⟨p, hp, rfl⟩ | rfl
    · rw [Valuation.lit_not, hfire p hp] at ht
      cases ht
    · exact ⟨_, hout, ht⟩
  · rintro v ⟨hexp, hmod⟩
    exact ⟨⟨hexp, by simp [Modest]⟩, hmod⟩
  · rintro v ⟨⟨hexp, -⟩, -⟩
    exact hexp

/-! ### The loops of a node -/

/-- The jobs that pass outputs of a part on. -/
def passJobs (cap : Nat) (outs : Outputs) : List Job := outs.map fun o => ([o.2], min o.1 cap)

/-- The jobs that add one output of the left part to those of the right part. -/
def addJobs (cap sum : Nat) (l : Lit) (outs : Outputs) : List Job :=
  outs.map fun o => ([l, o.2], min (sum + o.1) cap)

/-- The jobs that add every output of the left part to every one of the right part. -/
def pairJobs (cap : Nat) (right left : Outputs) : List Job :=
  left.flatMap fun o => addJobs cap o.1 o.2 right

theorem growing_passOn (cap : Nat) : ∀ (outs : Outputs) (sums : Sums),
    Encoder.Growing (passOn cap sums outs : Encoder ε Sums)
  | [], _ => Encoder.growing_pure _
  | (_, _) :: outs, _ => (growing_output _ _).bind fun _ =>
      (Encoder.growing_addClause _).bind fun _ => growing_passOn cap outs _

theorem growing_addTo (cap sum : Nat) (l : Lit) : ∀ (outs : Outputs) (sums : Sums),
    Encoder.Growing (addTo cap sum l sums outs : Encoder ε Sums)
  | [], _ => Encoder.growing_pure _
  | (_, _) :: outs, _ => (Encoder.growing_checked _).bind fun _ =>
      (growing_output _ _).bind fun _ =>
        (Encoder.growing_addClause _).bind fun _ => growing_addTo cap sum l outs _

theorem growing_addPairs (cap : Nat) (right : Outputs) : ∀ (left : Outputs) (sums : Sums),
    Encoder.Growing (addPairs cap right sums left : Encoder ε Sums)
  | [], _ => Encoder.growing_pure _
  | (_, _) :: left, _ => (growing_addTo cap _ _ right _).bind fun _ =>
      growing_addPairs cap right left _

section Loops

variable {sum : Valuation → Nat} {cap : Nat} {s t : Cnf} {sums sums' : Sums}

/-- The outputs of one part are passed on, each by one job. -/
theorem passOn_works {outs : Outputs}
    (h : (passOn cap sums outs : Encoder ε Sums) s = .ok sums' t)
    (hroom : t.next ≤ Lit.varLimit) (hsum : SumBelow s.next sum) (hsums : SumsBelow s.next sums)
    (houts : ∀ o ∈ outs, o.2.var < s.next) : Works sum (passJobs cap outs) s sums t sums' := by
  induction outs generalizing s sums with
  | nil =>
    obtain ⟨rfl, rfl⟩ := Step.pure_eq_ok.1 h
    exact Works.refl hsums
  | cons out outs ih =>
    obtain ⟨k, l⟩ := out
    obtain ⟨⟨o, sums₁⟩, s₁, ho, h₁⟩ := Step.bind_eq_ok.1 h
    obtain ⟨_, s₂, hc, h₂⟩ := Step.bind_eq_ok.1 h₁
    have hgrow : s.Grows s₂ :=
      ((growing_output _ _).ok ho).trans ((Encoder.growing_addClause _).ok hc)
    have hrest : s₂.Grows t := (growing_passOn cap outs sums₁).ok h₂
    have houts' : ∀ o ∈ outs, o.2.var < s.next := fun o ho => houts o (List.mem_cons_of_mem _ ho)
    have hstep : Works sum [([l], min k cap)] s sums s₂ sums₁ :=
      output_step ho hc rfl (hrest.next_le.trans hroom) hsum hsums (by
        simpa using houts (k, l) (by simp))
    have htail := ih h₂ (fun v w hvw => hsum v w (hvw.mono hgrow.next_le)) hstep.below
      fun o ho => Nat.lt_of_lt_of_le (houts' o ho) hgrow.next_le
    refine hstep.trans htail hsum ?_
    intro job hjob p hp
    obtain ⟨o, ho, rfl⟩ := List.mem_map.1 hjob
    rw [List.mem_singleton.1 hp]
    exact houts' o ho

/-- One output is added to all outputs of the other part, each by one job. -/
theorem addTo_works {k : Nat} {l : Lit} {outs : Outputs}
    (h : (addTo cap k l sums outs : Encoder ε Sums) s = .ok sums' t)
    (hroom : t.next ≤ Lit.varLimit) (hsum : SumBelow s.next sum) (hsums : SumsBelow s.next sums)
    (hl : l.var < s.next) (houts : ∀ o ∈ outs, o.2.var < s.next) :
    Works sum (addJobs cap k l outs) s sums t sums' := by
  induction outs generalizing s sums with
  | nil =>
    obtain ⟨rfl, rfl⟩ := Step.pure_eq_ok.1 h
    exact Works.refl hsums
  | cons out outs ih =>
    obtain ⟨k', r⟩ := out
    obtain ⟨total, s₀, hadd, h₀⟩ := Step.bind_eq_ok.1 h
    obtain ⟨htotal, rfl⟩ := Step.checked_eq_ok.1 hadd
    obtain ⟨⟨o, sums₁⟩, s₁, ho, h₁⟩ := Step.bind_eq_ok.1 h₀
    obtain ⟨_, s₂, hc, h₂⟩ := Step.bind_eq_ok.1 h₁
    obtain rfl := Word.addSize_eq_ok htotal
    have hgrow : s.Grows s₂ :=
      ((growing_output _ _).ok ho).trans ((Encoder.growing_addClause _).ok hc)
    have hrest : s₂.Grows t := (growing_addTo cap k l outs sums₁).ok h₂
    have houts' : ∀ o ∈ outs, o.2.var < s.next := fun o ho => houts o (List.mem_cons_of_mem _ ho)
    have hstep : Works sum [([l, r], min (k + k') cap)] s sums s₂ sums₁ :=
      output_step ho hc rfl (hrest.next_le.trans hroom) hsum hsums (by
        simpa using ⟨hl, houts (k', r) (by simp)⟩)
    have htail := ih h₂ (fun v w hvw => hsum v w (hvw.mono hgrow.next_le)) hstep.below
      (Nat.lt_of_lt_of_le hl hgrow.next_le)
      fun o ho => Nat.lt_of_lt_of_le (houts' o ho) hgrow.next_le
    refine hstep.trans htail hsum ?_
    intro job hjob p hp
    obtain ⟨o, ho, rfl⟩ := List.mem_map.1 hjob
    rcases List.mem_cons.1 hp with rfl | hp
    · exact hl
    · rw [List.mem_singleton.1 hp]
      exact houts' o ho

/-- All pairs of outputs are added, each by one job. -/
theorem addPairs_works {right left : Outputs}
    (h : (addPairs cap right sums left : Encoder ε Sums) s = .ok sums' t)
    (hroom : t.next ≤ Lit.varLimit) (hsum : SumBelow s.next sum) (hsums : SumsBelow s.next sums)
    (hright : ∀ o ∈ right, o.2.var < s.next) (hleft : ∀ o ∈ left, o.2.var < s.next) :
    Works sum (pairJobs cap right left) s sums t sums' := by
  induction left generalizing s sums with
  | nil =>
    obtain ⟨rfl, rfl⟩ := Step.pure_eq_ok.1 h
    exact Works.refl hsums
  | cons out left ih =>
    obtain ⟨k, l⟩ := out
    obtain ⟨sums₁, s₁, hadd, h₁⟩ := Step.bind_eq_ok.1 h
    have hgrow : s.Grows s₁ := (growing_addTo cap k l right sums).ok hadd
    have hrest : s₁.Grows t := (growing_addPairs cap right left sums₁).ok h₁
    have hleft' : ∀ o ∈ left, o.2.var < s.next := fun o ho => hleft o (List.mem_cons_of_mem _ ho)
    have hstep := addTo_works hadd (hrest.next_le.trans hroom) hsum hsums (hleft (k, l) (by simp))
      hright
    have htail := ih h₁ (fun v w hvw => hsum v w (hvw.mono hgrow.next_le)) hstep.below
      (fun o ho => Nat.lt_of_lt_of_le (hright o ho) hgrow.next_le)
      fun o ho => Nat.lt_of_lt_of_le (hleft' o ho) hgrow.next_le
    refine hstep.trans htail hsum ?_
    intro job hjob p hp
    obtain ⟨o, ho, hjob⟩ := List.mem_flatMap.1 hjob
    obtain ⟨o', ho', rfl⟩ := List.mem_map.1 hjob
    rcases List.mem_cons.1 hp with rfl | hp
    · exact hleft' o ho
    · rw [List.mem_singleton.1 hp]
      exact hright o' ho'

end Loops

/-! ### Trees -/

/-- The inputs at the leaves of a tree, from left to right. -/
def Tree.inputs : Tree → List WeightedLit
  | .leaf l w => [(l, w)]
  | .node left right => left.inputs ++ right.inputs

/-- A tree has the inputs that it is built from, in their order. -/
theorem Tree.inputs_build (inputs : List WeightedLit) (h : inputs ≠ []) :
    (build inputs h).inputs = inputs := by
  fun_induction build inputs h with
  | case1 inputs h hlt =>
    obtain ⟨i, rest, rfl⟩ := List.exists_cons_of_ne_nil h
    obtain rfl : rest = [] := by
      rw [← List.length_eq_zero_iff]
      rw [List.length_cons] at hlt
      omega
    rfl
  | case2 inputs h hlt ih₁ ih₂ =>
    rw [Tree.inputs, ih₁, ih₂, List.take_append_drop]

theorem Tree.growing_encode (cap : Nat) : ∀ tree : Tree,
    Encoder.Growing (tree.encode cap : Encoder ε Outputs)
  | .leaf _ _ => Encoder.growing_pure _
  | .node left right => (growing_encode cap left).bind fun _ => (growing_encode cap right).bind
      fun _ => (growing_passOn cap _ _).bind fun _ => (growing_addPairs cap _ _ _).bind
      fun _ => Encoder.growing_pure _

/-- In models, the output of the sum that the inputs reach is true, if an input is true. -/
def Reached (cap : Nat) (inputs : List WeightedLit) (outs : Outputs) (v : Valuation) : Prop :=
  (∃ i ∈ inputs, v.lit i.1 = true) →
    ∃ l, (min (weightOf v inputs) cap, l) ∈ outs ∧ v.lit l = true

/-- A true output is a sum that the inputs reach or pass. -/
def Supported (inputs : List WeightedLit) (outs : Outputs) (v : Valuation) : Prop :=
  ∀ o ∈ outs, v.lit o.2 = true → o.1 ≤ weightOf v inputs

/-- Whether outputs are supported hangs on variables that exist. -/
theorem Supported.stable {n : Nat} {inputs : List WeightedLit} {outs : Outputs}
    (hin : ∀ i ∈ inputs, i.1.var < n) (hout : ∀ o ∈ outs, o.2.var < n) :
    StableBelow n (Supported inputs outs) := by
  intro v w hvw h o ho ht
  rw [weightOf_congr hin hvw]
  refine h o ho ?_
  rwa [← hvw.lit_eq (hout o ho)]

/-- The jobs of a node. -/
def nodeJobs (cap : Nat) (ls rs : Outputs) : List Job :=
  passJobs cap (ls ++ rs) ++ pairJobs cap rs ls

/-- Sums that both parts reach add up, and sums of one part alone are passed on. -/
theorem reached_node {cap : Nat} {as bs : List WeightedLit} {ls rs : Outputs} {sums : Sums}
    {v : Valuation} (hls : Reached cap as ls v) (hrs : Reached cap bs rs v)
    (hjobs : ∀ job ∈ nodeJobs cap ls rs, Fires v job →
      ∃ o, sums[job.2]? = some o ∧ v.lit o = true) :
    Reached cap (as ++ bs) sums.toList v := by
  have hfind : ∀ (k : Nat) (o : Lit), sums[k]? = some o → (k, o) ∈ sums.toList := by
    intro k o hk
    exact Std.TreeMap.mem_toList_iff_getElem?_eq_some.2 hk
  -- One part alone is passed on.
  have hone : ∀ k l, (min k cap, l) ∈ ls ++ rs → v.lit l = true →
      ∃ o, (min k cap, o) ∈ sums.toList ∧ v.lit o = true := by
    intro k l hmem hl
    obtain ⟨o, ho, ht⟩ := hjobs ([l], min (min k cap) cap)
      (List.mem_append_left _ (List.mem_map.2 ⟨(min k cap, l), hmem, rfl⟩))
      (by simpa [Fires] using hl)
    refine ⟨o, hfind _ o ?_, ht⟩
    rwa [show min k cap = min (min k cap) cap by omega]
  intro hex
  rw [weightOf_append]
  by_cases ha : ∃ i ∈ as, v.lit i.1 = true
  · obtain ⟨l, hl, hlt⟩ := hls ha
    by_cases hb : ∃ i ∈ bs, v.lit i.1 = true
    · obtain ⟨r, hr, hrt⟩ := hrs hb
      obtain ⟨o, ho, ht⟩ := hjobs
        ([l, r], min (min (weightOf v as) cap + min (weightOf v bs) cap) cap)
        (List.mem_append_right _ (List.mem_flatMap.2 ⟨_, hl, List.mem_map.2 ⟨_, hr, rfl⟩⟩))
        (by simp [Fires, hlt, hrt])
      refine ⟨o, hfind _ o ?_, ht⟩
      rwa [show min (weightOf v as + weightOf v bs) cap =
        min (min (weightOf v as) cap + min (weightOf v bs) cap) cap by omega]
    · rw [weightOf_eq_zero hb, Nat.add_zero]
      exact hone _ l (List.mem_append_left _ hl) hlt
  · have hb : ∃ i ∈ bs, v.lit i.1 = true := by
      obtain ⟨i, hi, ht⟩ := hex
      rcases List.mem_append.1 hi with hi | hi
      · exact absurd ⟨i, hi, ht⟩ ha
      · exact ⟨i, hi, ht⟩
    obtain ⟨r, hr, hrt⟩ := hrs hb
    rw [weightOf_eq_zero ha, Nat.zero_add]
    exact hone _ r (List.mem_append_right _ hr) hrt

/-- Supported outputs of the parts give modest jobs at the node. -/
theorem modest_node {cap : Nat} {as bs : List WeightedLit} {ls rs : Outputs} {v : Valuation}
    (hls : Supported as ls v) (hrs : Supported bs rs v) :
    Modest (weightOf · (as ++ bs)) (nodeJobs cap ls rs) v := by
  intro job hjob hfire
  rcases List.mem_append.1 hjob with hjob | hjob
  · obtain ⟨o, ho, rfl⟩ := List.mem_map.1 hjob
    have ht : v.lit o.2 = true := hfire o.2 (by simp)
    show min o.1 cap ≤ weightOf v (as ++ bs)
    rw [weightOf_append]
    rcases List.mem_append.1 ho with ho | ho
    · have := hls o ho ht
      omega
    · have := hrs o ho ht
      omega
  · -- A pair of outputs: both sums are supported, and the sides are disjoint parts of the inputs.
    obtain ⟨l, hl, hjob⟩ := List.mem_flatMap.1 hjob
    obtain ⟨r, hr, rfl⟩ := List.mem_map.1 hjob
    have hlt := hls l hl (hfire l.2 (by simp))
    have hrt := hrs r hr (hfire r.2 (by simp))
    show min (l.1 + r.1) cap ≤ weightOf v (as ++ bs)
    rw [weightOf_append]
    omega

/-- The two loops of a node do all its jobs. -/
theorem node_works {sum : Valuation → Nat} {cap : Nat} {s t u : Cnf} {ls rs : Outputs}
    {sums sums' : Sums} (hpass : (passOn cap ∅ (ls ++ rs) : Encoder ε Sums) s = .ok sums t)
    (hpair : (addPairs cap rs sums ls : Encoder ε Sums) t = .ok sums' u)
    (hroom : u.next ≤ Lit.varLimit) (hsum : SumBelow s.next sum)
    (hls : ∀ o ∈ ls, o.2.var < s.next) (hrs : ∀ o ∈ rs, o.2.var < s.next) :
    Works sum (nodeJobs cap ls rs) s ∅ u sums' := by
  have hst : s.next ≤ t.next := ((growing_passOn cap _ _).ok hpass).next_le
  have htu : t.next ≤ u.next := ((growing_addPairs cap _ _ _).ok hpair).next_le
  have hw : Works sum (passJobs cap (ls ++ rs)) s ∅ t sums := by
    refine passOn_works hpass (htu.trans hroom) hsum (by simp [SumsBelow]) fun o ho => ?_
    rcases List.mem_append.1 ho with ho | ho
    · exact hls o ho
    · exact hrs o ho
  refine hw.trans (addPairs_works hpair hroom (fun v w hvw => hsum v w (hvw.mono hst)) hw.below
    (fun o ho => Nat.lt_of_lt_of_le (hrs o ho) hst)
    fun o ho => Nat.lt_of_lt_of_le (hls o ho) hst) hsum ?_
  intro job hjob p hp
  obtain ⟨l, hl, hjob⟩ := List.mem_flatMap.1 hjob
  obtain ⟨r, hr, rfl⟩ := List.mem_map.1 hjob
  rcases List.mem_cons.1 hp with rfl | hp
  · exact hls l hl
  · rw [List.mem_singleton.1 hp]
    exact hrs r hr

/-- A leaf has its input as its output. -/
theorem encodes_leaf (cap : Nat) (s : Cnf) (l : Lit) (w : Nat) :
    Encodes s s (Reached cap [(l, w)] [(min w cap, l)]) (fun _ => True)
      (Supported [(l, w)] [(min w cap, l)]) := by
  refine Encodes.refl s ?_ ?_
  · rintro v ⟨i, hi, ht⟩
    obtain rfl := List.mem_singleton.1 hi
    have ht' : v.lit l = true := ht
    exact ⟨l, by simp [ht'], ht'⟩
  · rintro v - o ho ht
    obtain rfl := List.mem_singleton.1 ho
    have ht' : v.lit l = true := ht
    simp [ht']

/-- A node has the outputs that its jobs need, once its parts are encoded. -/
theorem encodes_node {cap : Nat} {as bs : List WeightedLit} {ls rs : Outputs} {sums sums' : Sums}
    {s s₁ s₂ t u : Cnf}
    (hel : Encodes s s₁ (Reached cap as ls) (fun _ => True) (Supported as ls))
    (her : Encodes s₁ s₂ (Reached cap bs rs) (fun _ => True) (Supported bs rs))
    (hpass : (passOn cap ∅ (ls ++ rs) : Encoder ε Sums) s₂ = .ok sums t)
    (hpair : (addPairs cap rs sums ls : Encoder ε Sums) t = .ok sums' u)
    (hroom : u.next ≤ Lit.varLimit) (has : ∀ i ∈ as, i.1.var < s.next)
    (hbs : ∀ i ∈ bs, i.1.var < s.next) (hls : ∀ o ∈ ls, o.2.var < s₁.next)
    (hrs : ∀ o ∈ rs, o.2.var < s₂.next) :
    (∀ o ∈ sums'.toList, o.2.var < u.next) ∧
      Encodes s u (Reached cap (as ++ bs) sums'.toList) (fun _ => True)
        (Supported (as ++ bs) sums'.toList) := by
  have h₁ := hel.grows.next_le
  have h₂ := her.grows.next_le
  have hfind : ∀ o ∈ sums'.toList, sums'[o.1]? = some o.2 :=
    fun o ho => Std.TreeMap.mem_toList_iff_getElem?_eq_some.1 ho
  -- The right part is encoded beside the left one and leaves its outputs as they are.
  have hleft : StableBelow s₁.next (Supported as ls) :=
    Supported.stable (fun i hi => Nat.lt_of_lt_of_le (has i hi) h₁) hls
  have hright : StableBelow s₂.next (Supported bs rs) :=
    Supported.stable (fun i hi => Nat.lt_of_lt_of_le (hbs i hi) (h₁.trans h₂)) hrs
  have hparts := hel.trans (her.frame hleft) (fun v hv => ⟨trivial, hv⟩) hleft
  have hsum : SumBelow s₂.next (weightOf · (as ++ bs)) := by
    refine fun v w hvw => weightOf_congr (fun i hi => ?_) (hvw.mono (h₁.trans h₂))
    exact (List.mem_append.1 hi).elim (has i) (hbs i)
  have hworks : Works (weightOf · (as ++ bs)) (nodeJobs cap ls rs) s₂ ∅ u sums' :=
    node_works hpass hpair hroom hsum (fun o ho => Nat.lt_of_lt_of_le (hls o ho) h₂) hrs
  refine ⟨fun o ho => hworks.below o.1 o.2 (hfind o ho), ?_⟩
  refine (hparts.trans hworks.encodes ?_ ?_).mono ?_ (fun _ _ => trivial) ?_
  · -- The outputs of the parts are supported, so no job promises too much.
    rintro v ⟨hsl, hsr, -⟩
    exact ⟨by simp [Explained], modest_node hsl hsr⟩
  · exact (hleft.mono h₂).and (hright.and (hleft.mono h₂))
  · rintro v ⟨⟨hrl, hrr⟩, hjobs⟩
    exact reached_node hrl hrr hjobs
  · -- An explained output is true only where the sum reaches it.
    rintro w ⟨-, hexp⟩ o ho ht
    rw [hexp o.1 o.2 (hfind o ho)] at ht
    exact of_decide_eq_true ht

/-- **Trees.** The reached sum is forced, and no output needs to be true without support. -/
theorem Tree.encode_encodes {cap : Nat} {tree : Tree} {s t : Cnf} {outs : Outputs}
    (h : (tree.encode cap : Encoder ε Outputs) s = .ok outs t) (hroom : t.next ≤ Lit.varLimit)
    (hin : ∀ i ∈ tree.inputs, i.1.var < s.next) :
    (∀ o ∈ outs, o.2.var < t.next) ∧
      Encodes s t (Reached cap tree.inputs outs) (fun _ => True)
        (Supported tree.inputs outs) := by
  induction tree generalizing s t outs with
  | leaf l w =>
    obtain ⟨rfl, rfl⟩ := Step.pure_eq_ok.1 h
    exact ⟨by simpa [Tree.inputs] using hin, encodes_leaf cap s l w⟩
  | node left right ih₁ ih₂ =>
    obtain ⟨ls, s₁, hl, h₁⟩ := Step.bind_eq_ok.1 h
    obtain ⟨rs, s₂, hr, h₂⟩ := Step.bind_eq_ok.1 h₁
    obtain ⟨sums, s₃, hpass, h₃⟩ := Step.bind_eq_ok.1 h₂
    obtain ⟨sums', s₄, hpair, h₄⟩ := Step.bind_eq_ok.1 h₃
    obtain ⟨rfl, rfl⟩ := Step.pure_eq_ok.1 h₄
    have g₁ : s.Grows s₁ := (Tree.growing_encode cap left).ok hl
    have g₂ : s₁.Grows s₂ := (Tree.growing_encode cap right).ok hr
    have g₃ : s₂.Grows s₄ :=
      ((growing_passOn cap _ _).ok hpass).trans ((growing_addPairs cap _ _ _).ok hpair)
    have hinl : ∀ i ∈ left.inputs, i.1.var < s.next :=
      fun i hi => hin i (List.mem_append_left _ hi)
    have hinr : ∀ i ∈ right.inputs, i.1.var < s.next :=
      fun i hi => hin i (List.mem_append_right _ hi)
    have r₂ := g₃.next_le.trans hroom
    obtain ⟨hbl, hel⟩ := ih₁ hl (g₂.next_le.trans r₂) hinl
    obtain ⟨hbr, her⟩ := ih₂ hr r₂ fun i hi => Nat.lt_of_lt_of_le (hinr i hi) g₁.next_le
    exact encodes_node hel her hpass hpair hroom hinl hinr hbl hbr

/-! ### Totalizers -/

theorem growing_encodeInputs (bound : Nat) (inputs : List WeightedLit) :
    Encoder.Growing (encodeInputs bound inputs : Encoder ε Outputs) := by
  unfold encodeInputs
  split_ifs
  · exact Encoder.growing_pure _
  · exact (Encoder.growing_checked _).bind fun _ => Tree.growing_encode _ _

/-- An output above the bound is true in every model in which the inputs pass the bound. -/
theorem encodeInputs_encodes {bound : Nat} {inputs : List WeightedLit} {s t : Cnf} {outs : Outputs}
    (h : (encodeInputs bound inputs : Encoder ε Outputs) s = .ok outs t)
    (hroom : t.next ≤ Lit.varLimit) (hin : ∀ i ∈ inputs, i.1.var < s.next) :
    (∀ o ∈ outs, o.2.var < t.next) ∧
      Encodes s t
        (fun v => bound < weightOf v inputs → ∃ o ∈ outs, bound < o.1 ∧ v.lit o.2 = true)
        (fun _ => True) (Supported inputs outs) := by
  unfold encodeInputs at h
  by_cases hnil : inputs = []
  · rw [dif_pos hnil] at h
    obtain ⟨rfl, rfl⟩ := Step.pure_eq_ok.1 h
    subst hnil
    exact ⟨by simp, Encodes.refl s (by simp) (by simp [Supported])⟩
  · rw [dif_neg hnil] at h
    obtain ⟨cap, s₁, hcheck, h₁⟩ := Step.bind_eq_ok.1 h
    obtain ⟨hcap, rfl⟩ := Step.checked_eq_ok.1 hcheck
    obtain rfl := Word.addSize_eq_ok hcap
    have htree := Tree.encode_encodes h₁ hroom (by rwa [Tree.inputs_build])
    rw [Tree.inputs_build] at htree
    refine ⟨htree.1, htree.2.mono ?_ (fun _ h => h) fun _ h => h⟩
    intro v hreach hlt
    -- A weight above the bound is not zero, so some input is true and its output is reached.
    have hex : ∃ i ∈ inputs, v.lit i.1 = true := by
      by_contra hno
      rw [weightOf_eq_zero hno] at hlt
      omega
    obtain ⟨l, hl, ht⟩ := hreach hex
    exact ⟨_, hl, by simp only; omega, ht⟩

/-- The tree has the inputs that weigh at most the bound, in another order. -/
theorem perm_treeInputs (bound : Nat) (inputs : List WeightedLit) :
    (treeInputs bound inputs).Perm (inputs.filter fun i => i.2 ≤ bound) :=
  List.mergeSort_perm _ _

/-- Without true inputs above the bound, the tree sees all the weight. -/
theorem weightOf_treeInputs {bound : Nat} {inputs : List WeightedLit} {v : Valuation}
    (h : ∀ i ∈ inputs, bound < i.2 → v.lit i.1 ≠ true) :
    weightOf v (treeInputs bound inputs) = weightOf v inputs := by
  rw [weightOf_perm (perm_treeInputs bound inputs)]
  have hsplit := weightOf_filter_add (fun i => decide (i.2 ≤ bound)) v inputs
  have hzero : weightOf v (inputs.filter fun i => !decide (i.2 ≤ bound)) = 0 := by
    refine weightOf_eq_zero ?_
    rintro ⟨i, hi, ht⟩
    rw [List.mem_filter] at hi
    refine h i hi.1 ?_ ht
    simpa using hi.2
  omega

theorem growing_encode (t : Totalizer) (bound : Nat) :
    Encoder.Growing (t.encode bound : Encoder ε Totalizer) := by
  unfold encode
  split_ifs
  · exact Encoder.growing_pure _
  · refine Encoder.Growing.bind (Encoder.growing_of_after_eq Step.after_get) fun _ => ?_
    refine Encoder.Growing.bind (Encoder.growing_of_after_eq Step.after_get) fun _ => ?_
    refine (growing_encodeInputs _ _).bind fun _ => ?_
    refine Encoder.Growing.bind (Encoder.growing_of_after_eq Step.after_get) fun _ => ?_
    refine Encoder.Growing.bind (Encoder.growing_of_after_eq Step.after_get) fun _ => ?_
    exact Encoder.growing_pure _

/-- A totalizer that is encoded for a new bound keeps its inputs and takes over the outputs of the
tree. -/
theorem encode_eq_ok {t t' : Totalizer} {bound : Nat} {s u : Cnf} (hb : t.bound ≠ some bound)
    (h : (t.encode bound : Encoder ε Totalizer) s = .ok t' u) :
    t'.inputs = t.inputs ∧ t'.bound = some bound ∧
      (encodeInputs bound (treeInputs bound t.inputs) : Encoder ε Outputs) s =
        .ok t'.outputs u := by
  unfold encode at h
  rw [if_neg hb] at h
  obtain ⟨_, s₁, hget₁, h₁⟩ := Step.bind_eq_ok.1 h
  obtain ⟨rfl, rfl⟩ := Step.get_eq_ok.1 hget₁
  obtain ⟨_, s₂, hget₂, h₂⟩ := Step.bind_eq_ok.1 h₁
  obtain ⟨rfl, rfl⟩ := Step.get_eq_ok.1 hget₂
  obtain ⟨outs, s₃, houts, h₃⟩ := Step.bind_eq_ok.1 h₂
  obtain ⟨_, s₄, hget₄, h₄⟩ := Step.bind_eq_ok.1 h₃
  obtain ⟨rfl, rfl⟩ := Step.get_eq_ok.1 hget₄
  obtain ⟨_, s₅, hget₅, h₅⟩ := Step.bind_eq_ok.1 h₄
  obtain ⟨rfl, rfl⟩ := Step.get_eq_ok.1 hget₅
  obtain ⟨rfl, rfl⟩ := Step.pure_eq_ok.1 h₅
  exact ⟨rfl, rfl, houts⟩

/-- **Enforcing a bound.** With the units of the bound, models have at most that much weight; every
valuation with at most that much weight becomes a model of clauses and units. -/
theorem enforce_encodes {t : Totalizer} {bound : Nat} {units : List Lit} {s u : Cnf}
    (hbound : t.bound = some bound)
    (h : (encodeInputs bound (treeInputs bound t.inputs) : Encoder ε Outputs) s =
      .ok t.outputs u)
    (hunits : t.enforce bound = .ok units) (hroom : u.next ≤ Lit.varLimit)
    (hin : ∀ i ∈ t.inputs, i.1.var < s.next) :
    (∀ l ∈ units, l.var < u.next) ∧
      Encodes s u (fun v => (∀ l ∈ units, v.lit l = true) → weightOf v t.inputs ≤ bound)
        (fun v => weightOf v t.inputs ≤ bound) (fun w => ∀ l ∈ units, w.lit l = true) := by
  have hsub : ∀ i ∈ treeInputs bound t.inputs, i ∈ t.inputs := by
    intro i hi
    exact (List.mem_filter.1 ((perm_treeInputs bound t.inputs).mem_iff.1 hi)).1
  obtain ⟨hout, henc⟩ := encodeInputs_encodes h hroom fun i hi => hin i (hsub i hi)
  unfold enforce at hunits
  rw [if_pos hbound] at hunits
  cases hunits
  have hmem : ∀ l, l ∈ (t.inputs.filter fun i => bound < i.2).map (·.1.not) ++
      (t.outputs.filter fun o => bound < o.1).map (·.2.not) ↔
      (∃ i ∈ t.inputs, bound < i.2 ∧ i.1.not = l) ∨
        ∃ o ∈ t.outputs, bound < o.1 ∧ o.2.not = l := by
    intro l
    simp only [List.mem_append, List.mem_map, List.mem_filter, decide_eq_true_eq, and_assoc]
  have hstable : StableBelow s.next fun v => weightOf v t.inputs ≤ bound := by
    intro v w hvw hv
    rwa [weightOf_congr hin hvw]
  refine ⟨fun l hl => ?_, (henc.frame hstable).mono ?_ (fun v hv => ⟨trivial, hv⟩) ?_⟩
  · rcases (hmem l).1 hl with ⟨i, hi, -, rfl⟩ | ⟨o, ho, -, rfl⟩
    · exact Nat.lt_of_lt_of_le (hin i hi) henc.grows.next_le
    · exact hout o ho
  · intro v hv hl
    -- No input above the bound is true, so the tree sees all the weight.
    have hheavy : ∀ i ∈ t.inputs, bound < i.2 → v.lit i.1 ≠ true := by
      intro i hi hlt ht
      have := hl i.1.not ((hmem _).2 (.inl ⟨i, hi, hlt, rfl⟩))
      rw [Valuation.lit_not, ht] at this
      cases this
    by_contra hgt
    rw [← weightOf_treeInputs hheavy] at hgt
    obtain ⟨o, ho, hlt, ht⟩ := hv (Nat.lt_of_not_le hgt)
    have := hl o.2.not ((hmem _).2 (.inr ⟨o, ho, hlt, rfl⟩))
    rw [Valuation.lit_not, ht] at this
    cases this
  · -- A true literal above the bound, of an input or of an output, would mean too much weight.
    rintro w ⟨hsup, hle⟩ l hl
    have hheavy : ∀ i ∈ t.inputs, bound < i.2 → w.lit i.1 ≠ true := by
      intro i hi hlt ht
      have := le_weightOf_of_mem hi ht
      omega
    rcases (hmem l).1 hl with ⟨i, hi, hlt, rfl⟩ | ⟨o, ho, hlt, rfl⟩
    · rw [Valuation.lit_not, Bool.eq_false_of_not_eq_true (hheavy i hi hlt)]
      rfl
    · have hfalse : w.lit o.2 ≠ true := by
        intro ht
        have := hsup o ho ht
        rw [weightOf_treeInputs hheavy] at this
        omega
      rw [Valuation.lit_not, Bool.eq_false_of_not_eq_true hfalse]
      rfl

end WeightedCsp.Totalizer

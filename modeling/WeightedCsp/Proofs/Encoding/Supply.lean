import Mathlib
import WeightedCsp.Proofs.Encoding.PseudoBoolean

/-!
# Encoding within the supply of variables

Once its numbers are small enough, an encoder can fail in one way only: the pool of variables gives
out.  `Ends limit P x post` says so for the runs of `x` that stay within `limit` variables: such a
run ends with a result that satisfies `post`, or with an empty pool, and the clauses that it adds
speak of variables in `P` only, where `P` contains every variable that is still to be handed out.
With the variables of the inputs and nothing else of what was handed out before in `P`, every other
variable of the clauses is fresh; with everything in `P`, what is left is how the run ends.

The sums at the nodes of a totalizer never pass its cap, so for a bound of which the double fits a
machine word no addition overflows (`Totalizer.ends_encode`).  The bounds of normal forms are of
this kind (`PseudoBoolean.bound_lt_of_normalize`), and normal forms speak of the variables of the
sum they come from.  So the clauses of a pseudo-Boolean bound speak of these and of fresh ones, and
say exactly what the bound says (`PseudoBoolean.encode_expresses`).
-/

namespace WeightedCsp

namespace Step

variable {ε σ α β : Type} {x : Step ε σ α} {f : α → Step ε σ β} {s t : σ}

theorem after_bind_of_ok {a : α} (h : x s = .ok a t) : (x >>= f).after s = (f a).after t := by
  show after (EStateM.bind x f) s = _
  simp only [after, EStateM.bind, h]

theorem after_bind_of_error {e : Failure ε} (h : x s = .error e t) : (x >>= f).after s = t := by
  show after (EStateM.bind x f) s = _
  simp only [after, EStateM.bind, h]

end Step

/-! ### Added clauses -/

/-- Variables were handed out, and the clauses that were added speak of variables in `P` only. -/
structure Cnf.AddsOver (P : Nat → Prop) (s t : Cnf) : Prop where
  /-- No variable is handed out twice. -/
  next_le : s.next ≤ t.next
  /-- Where the variables of the new clauses come from. -/
  added : ∃ new, t.clauses.toList = s.clauses.toList ++ new ∧ ∀ c ∈ new, ∀ l ∈ c, P l.var

namespace Cnf.AddsOver

variable {P : Nat → Prop} {s t u : Cnf}

theorem refl (s : Cnf) : AddsOver P s s := ⟨Nat.le_refl _, [], by simp, by simp⟩

theorem trans (h₁ : AddsOver P s t) (h₂ : AddsOver P t u) : AddsOver P s u := by
  obtain ⟨hle₁, new₁, hnew₁, hvars₁⟩ := h₁
  obtain ⟨hle₂, new₂, hnew₂, hvars₂⟩ := h₂
  refine ⟨hle₁.trans hle₂, new₁ ++ new₂, by rw [hnew₂, hnew₁, List.append_assoc], ?_⟩
  exact List.forall_mem_append.2 ⟨hvars₁, hvars₂⟩

/-- Clauses that are appended as they are. -/
theorem append {cs : List Clause} (h : ∀ c ∈ cs, ∀ l ∈ c, P l.var) :
    AddsOver P s { s with clauses := s.clauses ++ cs.toArray } :=
  ⟨Nat.le_refl _, cs, by simp, h⟩

theorem withUnits {units : List Lit} (h : ∀ l ∈ units, P l.var) :
    AddsOver P s (s.withUnits units) :=
  append (by simpa using h)

end Cnf.AddsOver

/-- The valuation can be changed on the variables from `n` on so that the clauses are true. -/
def Completable (n : Nat) (cs : List Clause) (v : Valuation) : Prop :=
  ∃ w, v.AgreesBelow n w ∧ w.Satisfies cs

/-- The clauses between two states speak of the given variables and of fresh ones only, and fresh
ones can be set so that the clauses are true exactly where `p` is. -/
def Cnf.Expresses (vars : List Nat) (p : Valuation → Prop) (s t : Cnf) : Prop :=
  ∃ new, t.clauses.toList = s.clauses.toList ++ new ∧
    (∀ c ∈ new, ∀ l ∈ c, l.var ∈ vars ∨ s.next ≤ l.var ∧ l.var < t.next) ∧
    ∀ v, Completable s.next new v ↔ p v

/-- Encoded clauses express `q`, if what they imply for a valuation gives `q` below. -/
theorem Cnf.expresses_of_encodes {s t : Cnf} {vars : List Nat} {p q r : Valuation → Prop}
    (h : Encodes s t p q r) (hpq : ∀ v w : Valuation, v.AgreesBelow s.next w → p w → q v)
    (hadds : s.AddsOver (fun y => y ∈ vars ∨ s.next ≤ y) t) : s.Expresses vars q t := by
  obtain ⟨-, new, hnew, hbelow, hforced, hgiven⟩ := h
  obtain ⟨-, new', hnew', hvars⟩ := hadds
  obtain rfl : new = new' := List.append_cancel_left (hnew.symm.trans hnew')
  refine ⟨new, hnew, fun c hc l hl => ?_, fun v => ⟨?_, fun hv => ?_⟩⟩
  · exact (hvars c hc l hl).imp_right fun hle => ⟨hle, hbelow c hc l hl⟩
  · rintro ⟨w, hvw, hw⟩
    exact hpq v w hvw (hforced w hw)
  · obtain ⟨w, hvw, hw, -⟩ := hgiven v hv
    exact ⟨w, hvw, hw⟩

/-! ### Encoders that end -/

namespace Encoder

variable {ε α β : Type} {limit : Nat} {P : Nat → Prop} {x : Encoder ε α} {f : α → Encoder ε β}
  {p p' : α → Prop} {q : β → Prop}

/-- A run from `s` has ended as it should. -/
inductive Ended (P : Nat → Prop) (post : α → Prop) (s : Cnf) :
    EStateM.Result (Failure ε) Cnf α → Prop
  /-- There is a result, and the clauses that were added speak of variables in `P` only. -/
  | done {a : α} {t : Cnf} : post a → s.AddsOver P t → Ended P post s (.ok a t)
  /-- The pool has no room for the next variable. -/
  | exhausted {t : Cnf} : poolLimit ≤ t.next + 1 → Ended P post s (.error (.fault .add) t)

/-- Every run that stays within `limit` variables ends as it should, if the literals of the
variables to come are over `P`. -/
def Ends (limit : Nat) (P : Nat → Prop) (x : Encoder ε α) (post : α → Prop) : Prop :=
  ∀ s : Cnf, (∀ y, s.next ≤ y → y < limit → P (y % Lit.varLimit)) → (x.after s).next ≤ limit →
    Ended P post s (x s)

theorem Ends.mono (hx : Ends limit P x p) (hp : ∀ a, p a → p' a) : Ends limit P x p' := by
  intro s hP hroom
  have hrun := hx s hP hroom
  cases h : x s with
  | ok a t =>
    rw [h] at hrun
    cases hrun with
    | done ha hadds => exact .done (hp a ha) hadds
  | error e t =>
    rw [h] at hrun
    cases hrun with
    | exhausted ht => exact .exhausted ht

/-- **Sequencing.** A run never gives variables back, so there were enough of them for its first
part. -/
theorem Ends.bind (hx : Ends limit P x p) (hgrow : ∀ a, Growing (f a))
    (hf : ∀ a, p a → Ends limit P (f a) q) : Ends limit P (x >>= f) q := by
  intro s hP hroom
  cases hrun : x s with
  | error e t =>
    -- The run ends where its first part fails, so that part was within its variables.
    rw [Step.after_bind_of_error hrun] at hroom
    have hfirst := hx s hP (by rwa [Step.after_of_error hrun])
    rw [hrun] at hfirst
    cases hfirst with
    | exhausted ht =>
      rw [Step.bind_eq_error.2 (.inl hrun)]
      exact .exhausted ht
  | ok a t =>
    rw [Step.after_bind_of_ok hrun] at hroom
    have hle : t.next ≤ ((f a).after t).next := (hgrow a t).next_le
    have hfirst := hx s hP (by
      rw [Step.after_of_ok hrun]
      exact hle.trans hroom)
    rw [hrun] at hfirst
    cases hfirst with
    | done ha hadds =>
      have hrest := hf a ha t (fun y hy => hP y (hadds.next_le.trans hy)) hroom
      cases h : f a t with
      | ok b u =>
        rw [h] at hrest
        cases hrest with
        | done hb hadds' =>
          rw [Step.bind_eq_ok.2 ⟨a, t, hrun, h⟩]
          exact .done hb (hadds.trans hadds')
      | error e u =>
        rw [h] at hrest
        cases hrest with
        | exhausted hu =>
          rw [Step.bind_eq_error.2 (.inr ⟨a, t, hrun, h⟩)]
          exact .exhausted hu

/-- The pool is larger than what literals can tell apart, so within the variables of literals there
is a result. -/
theorem Ends.eq_ok (hx : Ends Lit.varLimit P x p) {s : Cnf} (hP : ∀ y, s.next ≤ y → P y)
    (hroom : (x.after s).next ≤ Lit.varLimit) : ∃ a t, x s = .ok a t ∧ p a ∧ s.AddsOver P t := by
  have hrun := hx s (fun y hy hlt => by rw [Nat.mod_eq_of_lt hlt]; exact hP y hy) hroom
  cases h : x s with
  | ok a t =>
    rw [h] at hrun
    cases hrun with
    | done ha hadds => exact ⟨a, t, rfl, ha, hadds⟩
  | error e t =>
    rw [h] at hrun
    rw [Step.after_of_error h] at hroom
    cases hrun with
    | exhausted ht =>
      unfold poolLimit at ht
      unfold Lit.varLimit at hroom
      omega

theorem ends_pure {a : α} (h : p a) : Ends limit P (pure a : Encoder ε α) p :=
  fun s _ _ => .done h (.refl s)

theorem ends_get : Ends limit P (get : Encoder ε Cnf) fun _ => True :=
  fun s _ _ => .done trivial (.refl s)

theorem ends_checked {c : Checked α} {a : α} (h : c = .ok a) :
    Ends limit P (liftM c : Encoder ε α) (· = a) := by
  subst h
  exact fun s _ _ => .done rfl (.refl s)

theorem ends_except {c : Except (Failure ε) α} {a : α} (h : c = .ok a) :
    Ends limit P (liftM c : Encoder ε α) (· = a) := by
  subst h
  exact fun s _ _ => .done rfl (.refl s)

/-- A new literal is over the variables to come, or the pool is full. -/
theorem ends_newLit : Ends limit P (newLit : Encoder ε Lit) fun l => P l.var := by
  intro s hP hroom
  by_cases hpool : s.next + 1 < poolLimit
  · have hrun : (newLit : Encoder ε Lit) s =
        .ok (Lit.ofVar s.next false) { s with next := s.next + 1 } := by
      refine Step.bind_eq_ok.2 ⟨s.next, { s with next := s.next + 1 }, ?_, rfl⟩
      simp [newVar, hpool]
    rw [Step.after_of_ok hrun] at hroom
    rw [hrun]
    exact .done (hP _ (Nat.le_refl _) hroom) ⟨Nat.le_succ _, [], by simp, by simp⟩
  · have hrun : (newLit : Encoder ε Lit) s = .error (.fault .add) s := by
      refine Step.bind_eq_error.2 (.inl ?_)
      simp [newVar, hpool]
    rw [hrun]
    exact .exhausted (Nat.le_of_not_lt hpool)

theorem ends_newLits : ∀ n : Nat, Ends limit P (newLits n : Encoder ε (List Lit)) fun ls =>
    ∀ l ∈ ls, P l.var
  | 0 => ends_pure (by simp)
  | n + 1 =>
    ends_newLit.bind (fun _ => (growing_newLits n).bind fun _ => growing_pure _) fun _ hl =>
      (ends_newLits n).bind (fun _ => growing_pure _) fun _ hls =>
        ends_pure (List.forall_mem_cons.2 ⟨hl, hls⟩)

theorem ends_addClause {c : Clause} (h : ∀ l ∈ c, P l.var) :
    Ends limit P (addClause c : Encoder ε Unit) fun _ => True :=
  fun _ _ _ => .done trivial ⟨Nat.le_refl _, [c], by simp, by simpa using h⟩

theorem ends_addClauses {cs : List Clause} (h : ∀ c ∈ cs, ∀ l ∈ c, P l.var) :
    Ends limit P (addClauses cs : Encoder ε Unit) fun _ => True := by
  intro s _ _
  rw [addClauses_eq_ok (u := ()).2 rfl]
  exact .done trivial (.append h)

theorem growing_foldlM {f : β → α → Encoder ε β} (hf : ∀ b a, Growing (f b a)) :
    ∀ (as : List α) (b : β), Growing (as.foldlM f b)
  | [], _ => growing_pure _
  | a :: as, b => by
    rw [List.foldlM_cons]
    exact (hf b a).bind fun b' => growing_foldlM hf as b'

/-- What every round of a loop needs and leaves behind. -/
theorem ends_foldlM {f : β → α → Encoder ε β} (hgrow : ∀ b a, Growing (f b a)) {as : List α}
    (hf : ∀ a ∈ as, ∀ b, q b → Ends limit P (f b a) q) {b : β} (hb : q b) :
    Ends limit P (as.foldlM f b) q := by
  induction as generalizing b with
  | nil => exact ends_pure hb
  | cons a as ih =>
    rw [List.foldlM_cons]
    refine (hf a (by simp) b hb).bind (growing_foldlM hgrow as) fun b' hb' => ?_
    exact ih (fun a' ha' => hf a' (List.mem_cons_of_mem _ ha')) hb'

end Encoder

/-! ### Totalizers -/

namespace Totalizer

open Encoder

variable {ε : Type} {limit : Nat} {P : Nat → Prop} {cap : Nat}

/-- The outputs of a node are sums up to the cap, with literals over `P`. -/
def SumsWithin (P : Nat → Prop) (cap : Nat) (sums : Sums) : Prop :=
  ∀ (k : Nat) (l : Lit), sums[k]? = some l → k ≤ cap ∧ P l.var

/-- The listed outputs are sums up to the cap, with literals over `P`. -/
def OutputsWithin (P : Nat → Prop) (cap : Nat) (outs : Outputs) : Prop :=
  ∀ o ∈ outs, o.1 ≤ cap ∧ P o.2.var

theorem SumsWithin.toList {sums : Sums} (h : SumsWithin P cap sums) :
    OutputsWithin P cap sums.toList :=
  fun o ho => h o.1 o.2 (Std.TreeMap.mem_toList_iff_getElem?_eq_some.1 ho)

/-- An output is looked up or made, for a sum up to the cap. -/
theorem ends_output {sums : Sums} (hsums : SumsWithin P cap sums) {k : Nat} (hk : k ≤ cap) :
    Ends limit P (output sums k : Encoder ε (Lit × Sums)) fun r =>
      P r.1.var ∧ SumsWithin P cap r.2 := by
  unfold output
  cases hfind : sums[k]? with
  | some l => exact ends_pure ⟨(hsums k l hfind).2, hsums⟩
  | none =>
    refine ends_newLit.bind (fun _ => growing_pure _) fun l hl => ends_pure ⟨hl, ?_⟩
    intro j m hj
    rw [Std.TreeMap.getElem?_insert] at hj
    split_ifs at hj with hjk
    · cases hj
      exact ⟨by rwa [← Nat.compare_eq_eq.1 hjk], hl⟩
    · exact hsums j m hj

/-- Sums that are passed on stay within the cap, as they are cut there. -/
theorem ends_passOn : ∀ {outs : Outputs} {sums : Sums}, OutputsWithin P cap outs →
    SumsWithin P cap sums → Ends limit P (passOn cap sums outs : Encoder ε Sums) (SumsWithin P cap)
  | [], _, _, hsums => ends_pure hsums
  | (k, l) :: outs, _, houts, hsums => by
    obtain ⟨⟨-, hl⟩, hrest⟩ := List.forall_mem_cons.1 houts
    refine (ends_output hsums (Nat.min_le_right k cap)).bind (fun _ =>
      (growing_addClause _).bind fun _ => growing_passOn cap outs _) fun r hr => ?_
    have hclause : ∀ m ∈ [l.not, r.1], P m.var := by simpa using ⟨hl, hr.1⟩
    exact (ends_addClause hclause).bind (fun _ => growing_passOn cap outs _) fun _ _ =>
      ends_passOn hrest hr.2

/-- Two sums up to the cap add up to at most twice the cap, which fits. -/
theorem ends_addTo (hcap : 2 * cap < Word.sizeLimit) {k : Nat} (hk : k ≤ cap) {l : Lit}
    (hl : P l.var) : ∀ {outs : Outputs} {sums : Sums}, OutputsWithin P cap outs →
    SumsWithin P cap sums →
    Ends limit P (addTo cap k l sums outs : Encoder ε Sums) (SumsWithin P cap)
  | [], _, _, hsums => ends_pure hsums
  | (k', l') :: outs, _, houts, hsums => by
    obtain ⟨⟨hk', hl'⟩, hrest⟩ := List.forall_mem_cons.1 houts
    have hsum : k + k' < Word.sizeLimit := by
      have : k' ≤ cap := hk'
      omega
    refine (ends_checked (a := k + k') (if_pos hsum)).bind (fun _ => (growing_output _ _).bind
      fun _ => (growing_addClause _).bind fun _ => growing_addTo cap k l outs _) ?_
    rintro _ rfl
    refine (ends_output hsums (Nat.min_le_right _ cap)).bind (fun _ =>
      (growing_addClause _).bind fun _ => growing_addTo cap k l outs _) fun r hr => ?_
    have hclause : ∀ m ∈ [l.not, l'.not, r.1], P m.var := by simpa using ⟨hl, hl', hr.1⟩
    exact (ends_addClause hclause).bind (fun _ => growing_addTo cap k l outs _) fun _ _ =>
      ends_addTo hcap hk hl hrest hr.2

/-- So do the sums of pairs, and twice the cap is a machine word. -/
theorem ends_addPairs (hcap : 2 * cap < Word.sizeLimit) {right : Outputs}
    (hright : OutputsWithin P cap right) : ∀ {left : Outputs} {sums : Sums},
    OutputsWithin P cap left → SumsWithin P cap sums →
    Ends limit P (addPairs cap right sums left : Encoder ε Sums) (SumsWithin P cap)
  | [], _, _, hsums => ends_pure hsums
  | (_, _) :: left, _, hleft, hsums => by
    obtain ⟨⟨hk, hl⟩, hrest⟩ := List.forall_mem_cons.1 hleft
    exact (ends_addTo hcap hk hl hright hsums).bind (fun _ => growing_addPairs cap right left _)
      fun _ hsums' => ends_addPairs hcap hright hrest hsums'

/-- A tree ends with outputs up to the cap. -/
theorem Tree.ends_encode (hcap : 2 * cap < Word.sizeLimit) {tree : Tree}
    (hin : ∀ i ∈ tree.inputs, P i.1.var) :
    Ends limit P (tree.encode cap : Encoder ε Outputs) (OutputsWithin P cap) := by
  induction tree with
  | leaf l w =>
    refine ends_pure fun o ho => ?_
    rw [List.mem_singleton.1 ho]
    exact ⟨Nat.min_le_right w cap, hin (l, w) (by simp [Tree.inputs])⟩
  | node left right ihl ihr =>
    obtain ⟨hinl, hinr⟩ := List.forall_mem_append.1 hin
    -- What is left to do at the node once both sides are done.
    have hnode : ∀ ls rs : Outputs, Growing (do
        let sums ← passOn cap ∅ (ls ++ rs)
        let sums ← addPairs cap rs sums ls
        return sums.toList : Encoder ε Outputs) := fun ls rs =>
      (growing_passOn cap _ _).bind fun _ => (growing_addPairs cap rs ls _).bind fun _ =>
        growing_pure _
    refine (ihl hinl).bind (fun ls => (Tree.growing_encode cap right).bind fun rs => hnode ls rs)
      fun ls hls => (ihr hinr).bind (fun rs => hnode ls rs) fun rs hrs => ?_
    have hempty : SumsWithin P cap ∅ := by simp [SumsWithin]
    refine (ends_passOn (List.forall_mem_append.2 ⟨hls, hrs⟩) hempty).bind (fun _ =>
      (growing_addPairs cap rs ls _).bind fun _ => growing_pure _) fun sums hsums => ?_
    exact (ends_addPairs hcap hrs hls hsums).bind (fun _ => growing_pure _) fun _ hsums' =>
      ends_pure hsums'.toList

/-- The cap is one above the bound. -/
theorem ends_encodeInputs {bound : Nat} (hbound : 2 * (bound + 1) < Word.sizeLimit)
    {inputs : List WeightedLit} (hin : ∀ i ∈ inputs, P i.1.var) :
    Ends limit P (encodeInputs bound inputs : Encoder ε Outputs)
      (OutputsWithin P (bound + 1)) := by
  unfold encodeInputs
  split_ifs with hnil
  · exact ends_pure (by simp [OutputsWithin])
  · have hcap : Word.addSize bound 1 = .ok (bound + 1) := Word.addSize_of_lt (by omega)
    refine (ends_checked hcap).bind (fun _ => Tree.growing_encode _ _) ?_
    rintro _ rfl
    exact Tree.ends_encode hbound (by rwa [Tree.inputs_build])

/-- The inputs and outputs of a totalizer are over `P`. -/
def Over (P : Nat → Prop) (t : Totalizer) : Prop :=
  (∀ i ∈ t.inputs, P i.1.var) ∧ ∀ o ∈ t.outputs, P o.2.var

/-- **Totalizers end** for every bound of which the double fits, and are then ready for it. -/
theorem ends_encode {t : Totalizer} (ht : t.Over P) {bound : Nat}
    (hbound : 2 * (bound + 1) < Word.sizeLimit) :
    Ends limit P (t.encode bound : Encoder ε Totalizer) fun t' =>
      t'.Over P ∧ t'.bound = some bound := by
  have hin : ∀ i ∈ treeInputs bound t.inputs, P i.1.var := by
    intro i hi
    exact ht.1 i (List.mem_filter.1 ((perm_treeInputs bound t.inputs).mem_iff.1 hi)).1
  have hget : Growing (get : Encoder ε Cnf) := growing_of_after_eq Step.after_get
  unfold encode
  split_ifs with hsame
  · exact ends_pure ⟨ht, hsame⟩
  · refine ends_get.bind (fun _ => hget.bind fun _ => (growing_encodeInputs _ _).bind fun _ =>
      hget.bind fun _ => hget.bind fun _ => growing_pure _) fun _ _ => ?_
    refine ends_get.bind (fun _ => (growing_encodeInputs _ _).bind fun _ =>
      hget.bind fun _ => hget.bind fun _ => growing_pure _) fun _ _ => ?_
    refine (ends_encodeInputs hbound hin).bind (fun _ => hget.bind fun _ => hget.bind fun _ =>
      growing_pure _) fun outs houts => ?_
    refine ends_get.bind (fun _ => hget.bind fun _ => growing_pure _) fun _ _ => ?_
    refine ends_get.bind (fun _ => growing_pure _) fun _ _ => ends_pure ?_
    exact ⟨⟨ht.1, fun o ho => (houts o ho).2⟩, rfl⟩

/-- A totalizer gives units for the bound that it was encoded for. -/
theorem enforce_of_bound {t : Totalizer} {bound : Nat} (h : t.bound = some bound) :
    ∃ units, t.enforce bound = .ok units :=
  ⟨_, if_pos h⟩

/-- The units are negated inputs and outputs. -/
theorem Over.enforce {t : Totalizer} (ht : t.Over P) {bound : Nat} {units : List Lit}
    (h : t.enforce bound = .ok units) : ∀ l ∈ units, P l.var := by
  unfold Totalizer.enforce at h
  split_ifs at h
  cases h
  refine List.forall_mem_append.2 ⟨fun l hl => ?_, fun l hl => ?_⟩
  · obtain ⟨i, hi, rfl⟩ := List.mem_map.1 hl
    exact ht.1 i (List.mem_filter.1 hi).1
  · obtain ⟨o, ho, rfl⟩ := List.mem_map.1 hl
    exact ht.2 o (List.mem_filter.1 ho).1

end Totalizer

/-! ### Pseudo-Boolean sums -/

namespace PseudoBoolean

open Encoder

variable {limit : Nat} {P : Nat → Prop} {lits : List (Lit × Int)} {bound : Int} {s t : Cnf}
  {x : Unit}

theorem inRange_of_sum? {xs : List Int} {acc sum : Int} (h : xs.foldlM Word.add? acc = some sum)
    (hacc : Word.InRange acc) : Word.InRange sum := by
  induction xs generalizing acc with
  | nil =>
    cases h
    exact hacc
  | cons y xs ih =>
    rw [List.foldlM_cons] at h
    obtain ⟨b, hb, h⟩ := Option.bind_eq_some_iff.1 h
    obtain ⟨hrange, rfl⟩ := Word.fit?_eq_some_iff.1 hb
    exact ih h hrange

/-- A bound that is worth encoding lies below the sum of the weights, which fits a machine word. -/
theorem bound_lt_of_normalize {ls : List WeightedLit} {b : Nat}
    (h : normalize lits bound = .ok (.atMost ls b)) : (b : Int) < Word.greatest := by
  obtain ⟨⟨coeffs, offset⟩, -, h⟩ := Checked.bind_eq_ok.1 h
  obtain ⟨⟨out, offset'⟩, -, h⟩ := Checked.bind_eq_ok.1 h
  obtain ⟨k, -, h⟩ := Checked.bind_eq_ok.1 h
  simp only at h
  split_ifs at h with hneg
  · cases h
  · obtain ⟨sum, hsum, h⟩ := Checked.bind_eq_ok.1 h
    have hrange := inRange_of_sum? (fitting_eq_ok.1 hsum) (by decide)
    split_ifs at h with hle
    · cases h
    · cases h
      have := hrange.2
      omega

/-- What follows the normal form of an upper bound: the totalizer is asked for the bound that it is
encoded for, so it cannot refuse. -/
theorem ends_encodeAtMost {normal : Normal} (hnormal : normalize lits bound = .ok normal)
    (hvars : ∀ ls b, normal = .atMost ls b → ∀ i ∈ ls, P i.1.var) :
    Ends limit P (encodeAtMost lits bound) fun _ => True := by
  unfold encodeAtMost
  rw [hnormal]
  cases normal with
  | tautology => exact ends_pure trivial
  | unsat => exact ends_addClause (by simp)
  | atMost ls b =>
    have hbound : 2 * (b + 1) < Word.sizeLimit := by
      have := bound_lt_of_normalize hnormal
      unfold Word.greatest at this
      unfold Word.sizeLimit
      omega
    have hover : (Totalizer.ofInputs ls).Over P :=
      ⟨hvars ls b rfl, by simp [Totalizer.ofInputs]⟩
    refine (Totalizer.ends_encode hover hbound).bind (fun _ => (growing_except _).bind fun _ =>
      growing_addClauses _) fun t hencoded => ?_
    obtain ⟨ht, hready⟩ := hencoded
    obtain ⟨units, hunits⟩ := Totalizer.enforce_of_bound hready
    refine (ends_except (Failure.ofExcept_eq_ok.2 hunits)).bind (fun _ => growing_addClauses _) ?_
    rintro _ rfl
    exact ends_addClauses (by simpa using ht.enforce hunits)

/-- The clauses of an upper bound speak of the variables of the sum and of fresh ones. -/
theorem encodeAtMost_addsOver (h : encodeAtMost lits bound s = .ok x t)
    (hroom : t.next ≤ Lit.varLimit) (hin : ∀ p ∈ lits, p.1.var < s.next)
    (hlits : ∀ p ∈ lits, P p.1.var) (hfresh : ∀ y, s.next ≤ y → P y) : s.AddsOver P t := by
  have hg : s.Grows t := (growing_encodeAtMost lits bound).ok h
  obtain ⟨normal, _, hlift, -⟩ := Step.bind_eq_ok.1 h
  obtain ⟨hnormal, -⟩ := Step.except_eq_ok.1 hlift
  -- Normal forms have variables of the sum only, and these fit literals.
  obtain ⟨-, hvars⟩ := normalize_holds (Q := fun y => P y ∧ y < Lit.varLimit) hnormal
    (fun p hp => ⟨hlits p hp, Nat.lt_of_lt_of_le (hin p hp) (hg.next_le.trans hroom)⟩)
    fun _ hy => hy.2
  have hends : Ends Lit.varLimit P (encodeAtMost lits bound) fun _ => True :=
    ends_encodeAtMost hnormal fun ls b hls i hi => (hvars ls b hls i hi).1
  obtain ⟨_, _, hrun, -, hadds⟩ := hends.eq_ok hfresh (by rwa [Step.after_of_ok h])
  rw [h] at hrun
  cases hrun
  exact hadds

/-- A lower bound is an upper bound of the negated sum, over the same variables. -/
theorem encodeAtLeast_addsOver (h : encodeAtLeast lits bound s = .ok x t)
    (hroom : t.next ≤ Lit.varLimit) (hin : ∀ p ∈ lits, p.1.var < s.next)
    (hlits : ∀ p ∈ lits, P p.1.var) (hfresh : ∀ y, s.next ≤ y → P y) : s.AddsOver P t := by
  obtain ⟨lits', s₁, hlift, h₁⟩ := Step.bind_eq_ok.1 h
  obtain ⟨hneg, rfl⟩ := Step.checked_eq_ok.1 hlift
  obtain ⟨bound', s₂, hlift', h₂⟩ := Step.bind_eq_ok.1 h₁
  obtain ⟨-, rfl⟩ := Step.except_eq_ok.1 hlift'
  obtain ⟨-, hvars⟩ := negateWeights_eq_ok hneg
  exact encodeAtMost_addsOver h₂ hroom (hvars (· < s.next) hin) (hvars P hlits) hfresh

/-- **Pseudo-Boolean encodings are exact.** The clauses speak of the variables of the sum and of
fresh ones only, and the fresh ones can be set so that all clauses are true exactly where the
weighted sum of the true literals keeps the bound. -/
theorem encode_expresses (hroom : t.next ≤ Lit.varLimit) (hin : ∀ p ∈ lits, p.1.var < s.next) :
    (encodeAtMost lits bound s = .ok x t →
      s.Expresses (lits.map (·.1.var)) (total · lits ≤ bound) t) ∧
    (encodeAtLeast lits bound s = .ok x t →
      s.Expresses (lits.map (·.1.var)) (bound ≤ total · lits) t) := by
  have hlits : ∀ p ∈ lits, p.1.var ∈ lits.map (·.1.var) ∨ s.next ≤ p.1.var :=
    fun p hp => .inl (List.mem_map.2 ⟨p, hp, rfl⟩)
  refine ⟨fun h => ?_, fun h => ?_⟩
  · refine Cnf.expresses_of_encodes (encodeAtMost_encodes h hroom hin) (fun v w hvw hw => ?_)
      (encodeAtMost_addsOver h hroom hin hlits fun y hy => .inr hy)
    rwa [total_congr hin hvw] at hw
  · refine Cnf.expresses_of_encodes (encodeAtLeast_encodes h hroom hin) (fun v w hvw hw => ?_)
      (encodeAtLeast_addsOver h hroom hin hlits fun y hy => .inr hy)
    rwa [total_congr hin hvw] at hw

/-- A sum with a repeated and a complementary literal, a negative weight and one of zero. -/
def mixedSum : List (Lit × Int) :=
  [(⟨0, false⟩, 3), (⟨1, true⟩, -2), (⟨0, true⟩, 1), (⟨2, false⟩, 4), (⟨2, false⟩, 0)]

theorem encode_expresses_mixedSum :
    Cnf.Expresses (mixedSum.map (·.1.var)) (total · mixedSum ≤ 2) ⟨3, #[]⟩
      ((encodeAtMost mixedSum 2).after ⟨3, #[]⟩) ∧
    Cnf.Expresses (mixedSum.map (·.1.var)) (2 ≤ total · mixedSum) ⟨3, #[]⟩
      ((encodeAtLeast mixedSum 2).after ⟨3, #[]⟩) :=
  have hmost : (encodeAtMost mixedSum 2).result? ⟨3, #[]⟩ = some () := by cbv
  have hleast : (encodeAtLeast mixedSum 2).result? ⟨3, #[]⟩ = some () := by cbv
  ⟨(encode_expresses (by cbv) (by decide)).1 (Step.eq_ok_of_result? hmost),
    (encode_expresses (by cbv) (by decide)).2 (Step.eq_ok_of_result? hleast)⟩

end PseudoBoolean

end WeightedCsp

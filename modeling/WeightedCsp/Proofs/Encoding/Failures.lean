import Mathlib.Tactic.SplitIfs
import WeightedCsp.Encoding.Order
import WeightedCsp.Encoding.PseudoBoolean
import WeightedCsp.Proofs.Step

/-!
# Where encoders fail

A computation fails with a fault, which ends it for good, or with an error.  `Tame q` says of one
that its only faults are overflows, sums, differences and products that leave the machine range or
a limit of time beyond the end of the clock, and that its errors satisfy `q`.  Encoders of variables
and clauses have no errors of their own, so they are tame for every `q`.

An encoder of sums has two errors: a number leaves the machine range, or a totalizer is asked for a
bound that it was not encoded for.  The second never happens, since a totalizer is asked for its
bound right after it was encoded for it (`PseudoBoolean.tame_encodeAtMost`).  Where the normal form
of a sum cannot be computed is said exactly (`PseudoBoolean.fails_normalize`).

There is one lemma for each function.  A computation is tame if its parts are, whatever the parts
before have come to, so nothing needs to be known of states.
-/

namespace WeightedCsp

/-- The fault is an overflow, of machine arithmetic or of the clock. -/
def Fault.IsOverflow : Fault → Prop
  | .add | .sub | .mul | .neg | .div | .rem | .deadline => True
  | .emptyOrder | .emptyRange | .index _ _ => False

/-- The failure is an overflow, or an error that satisfies `q`. -/
def Failure.Within {ε : Type} (q : ε → Prop) : Failure ε → Prop
  | .fault t => t.IsOverflow
  | .error e => q e

/-- How an error is wrapped up says nothing of faults. -/
theorem Failure.Within.map {ε δ : Type} {q : ε → Prop} {g : ε → δ} {e : Failure ε}
    (h : e.Within q) : (e.map g).Within fun _ => True := by
  cases e with
  | fault t => exact h
  | error e => trivial

/-- The only faults of the computation are overflows. -/
def Checked.Tame {α : Type} (x : Checked α) : Prop := ∀ t, x = .error t → t.IsOverflow

/-- The failures of the computation satisfy `p`. -/
def Failure.Fails {ε α : Type} (p : Failure ε → Prop) (x : Except (Failure ε) α) : Prop :=
  ∀ e, x = .error e → p e

/-- The failures of the computation are overflows, and errors that satisfy `q`. -/
abbrev Failure.Tame {ε α : Type} (q : ε → Prop) (x : Except (Failure ε) α) : Prop :=
  Failure.Fails (Failure.Within q) x

/-- The failures of the step, from any state, are overflows, and errors that satisfy `q`. -/
def Step.Tame {ε σ α : Type} (q : ε → Prop) (x : Step ε σ α) : Prop :=
  ∀ s e s', x s = .error e s' → e.Within q

/-! ### Sequencing -/

namespace Checked

variable {α β : Type} {x : Checked α} {f : α → Checked β}

theorem tame_ok (a : α) : Tame (.ok a) := by
  rintro t ⟨⟩

theorem Tame.bind (hx : Tame x) (hf : ∀ a, Tame (f a)) : Tame (x >>= f) := by
  cases x with
  | ok a => exact hf a
  | error t => exact fun t' h => hx t' (by cases h; rfl)

theorem Tame.map {g : α → β} (hx : Tame x) : Tame (x >>= fun a => pure (g a)) :=
  hx.bind fun _ => tame_ok _

theorem tame_mapM {f : β → Checked α} (hf : ∀ b, Tame (f b)) :
    ∀ bs : List β, Tame (bs.mapM f)
  | [] => tame_ok _
  | b :: bs => by
    rw [List.mapM_cons]
    exact (hf b).bind fun _ => (tame_mapM hf bs).map

theorem tame_foldlM {g : β → α → Checked β} (hg : ∀ b a, Tame (g b a)) :
    ∀ (as : List α) (b : β), Tame (as.foldlM g b)
  | [], _ => tame_ok _
  | a :: as, b => by
    rw [List.foldlM_cons]
    exact (hg b a).bind fun b' => tame_foldlM hg as b'

end Checked

namespace Failure

variable {ε α β : Type} {p p' : Failure ε → Prop} {q : ε → Prop} {x : Except (Failure ε) α}
  {f : α → Except (Failure ε) β}

theorem fails_ok (a : α) : Failure.Fails p (.ok a) := by
  rintro e ⟨⟩

theorem Fails.mono (hx : Failure.Fails p x) (hp : ∀ e, p e → p' e) : Failure.Fails p' x :=
  fun e h => hp e (hx e h)

/-- Sequencing: what comes second may count on the result of what came first. -/
theorem Fails.bind (hx : Failure.Fails p x) (hf : ∀ a, x = .ok a → Failure.Fails p (f a)) :
    Failure.Fails p (x >>= f) := by
  cases x with
  | ok a => exact hf a rfl
  | error e => exact fun e' h => hx e' (by cases h; rfl)

theorem fails_checked {c : Checked α} (hc : ∀ t, c = .error t → p (.fault t)) :
    Failure.Fails p (liftM c : Except (Failure ε) α) := by
  cases c with
  | ok a => exact fails_ok a
  | error t =>
    rintro e ⟨⟩
    exact hc t rfl

theorem tame_checked {c : Checked α} (hc : c.Tame) :
    Failure.Tame q (liftM c : Except (Failure ε) α) :=
  fails_checked hc

theorem tame_error {e : ε} (h : q e) : Failure.Tame q (.error (.error e) : Except _ α) := by
  rintro e' ⟨⟩
  exact h

theorem tame_ofExcept {c : Except ε α} (hc : ∀ e, c = .error e → q e) :
    Failure.Tame q (Failure.ofExcept c) := by
  cases c with
  | ok a => exact fails_ok a
  | error e => exact tame_error (hc e rfl)

end Failure

namespace Step

variable {ε σ α β : Type} {q : ε → Prop} {x : Step ε σ α} {f : α → Step ε σ β}

/-- Sequencing: a failure comes from the first step or from the second. -/
theorem Tame.bind (hx : x.Tame q) (hf : ∀ a, (f a).Tame q) : (x >>= f).Tame q := by
  intro s e s' h
  rcases bind_eq_error.1 h with h | ⟨a, u, -, h⟩
  · exact hx s e s' h
  · exact hf a u e s' h

theorem tame_pure (a : α) : (pure a : Step ε σ α).Tame q := by
  rintro s e s' ⟨⟩

theorem tame_get : (get : Step ε σ σ).Tame q := by
  rintro s e s' ⟨⟩

theorem tame_modify (g : σ → σ) : (modify g : Step ε σ Unit).Tame q := by
  rintro s e s' ⟨⟩

theorem tame_fail {e : ε} (h : q e) : (fail e : Step ε σ α).Tame q := by
  rintro s e' s' ⟨⟩
  exact h

theorem tame_checked {c : Checked α} (hc : c.Tame) : (liftM c : Step ε σ α).Tame q := by
  intro s e s' h
  obtain ⟨⟨t, ht, rfl⟩, -⟩ := checked_eq_error.1 h
  exact hc t ht

/-- A computation that does not touch the state fails as it does alone. -/
theorem tame_except {c : Except (Failure ε) α} (hc : Failure.Tame q c) :
    (liftM c : Step ε σ α).Tame q := by
  intro s e s' h
  exact hc e (except_eq_error.1 h).1

end Step

/-! ### Machine arithmetic -/

namespace Word

open Checked

theorem tame_fit (t : Fault) (ht : t.IsOverflow) (x : Int) : (fit t x).Tame := by
  unfold fit
  split_ifs
  · exact tame_ok x
  · rintro t' ⟨⟩
    exact ht

theorem tame_add (a b : Int) : (add a b).Tame := tame_fit .add trivial _

theorem tame_sub (a b : Int) : (sub a b).Tame := tame_fit .sub trivial _

theorem tame_mul (a b : Int) : (mul a b).Tame := tame_fit .mul trivial _

theorem tame_neg (a : Int) : (neg a).Tame := tame_fit .neg trivial _

/-- The change of a sign faults where the opposite does not fit. -/
theorem neg_eq_error {a : Int} {t : Fault} (h : neg a = .error t) :
    t = .neg ∧ ¬InRange (-a) := by
  unfold neg fit at h
  split_ifs at h with hrange
  cases h
  exact ⟨rfl, hrange⟩

/-- The least machine integer divided by minus one leaves the range. -/
theorem tame_div (a b : Int) : (div a b).Tame := tame_fit .div trivial _

/-- The remainder overflows where the quotient does. -/
theorem tame_rem (a b : Int) : (rem a b).Tame := by
  unfold rem
  split_ifs
  · exact tame_ok _
  · rintro t ⟨⟩
    trivial

theorem tame_divFloor (a b : Int) : (divFloor a b).Tame := by
  refine (tame_div a b).bind fun q => (tame_rem a b).bind fun r => ?_
  split_ifs
  · exact tame_sub q 1
  · exact tame_ok q

theorem tame_divCeil (a b : Int) : (divCeil a b).Tame := by
  refine (tame_div a b).bind fun q => (tame_rem a b).bind fun r => ?_
  split_ifs
  · exact tame_add q 1
  · exact tame_ok q

theorem tame_addSize (a b : Nat) : (addSize a b).Tame := by
  unfold addSize
  split_ifs
  · exact tame_ok _
  · rintro t ⟨⟩
    trivial

theorem tame_sum (xs : List Int) : (sum xs).Tame := tame_foldlM tame_add xs 0

end Word

/-! ### Encoders -/

namespace Encoder

variable {ε : Type} {q : ε → Prop}

open Step

/-- A new literal overflows where the pool is full. -/
theorem tame_newLit : (newLit : Encoder ε Lit).Tame q := by
  -- A pool counts its variables by a machine word.
  refine Tame.bind (fun s t s' h => ?_) fun _ => tame_pure _
  unfold newVar at h
  split_ifs at h
  cases h
  trivial

theorem tame_newLits : ∀ n : Nat, (newLits n : Encoder ε (List Lit)).Tame q
  | 0 => tame_pure _
  | n + 1 => tame_newLit.bind fun _ => (tame_newLits n).bind fun _ => tame_pure _

theorem tame_addClause (c : Clause) : (addClause c : Encoder ε Unit).Tame q := by
  rintro s t s' ⟨⟩

theorem tame_addClauses : ∀ cs : List Clause, (addClauses cs : Encoder ε Unit).Tame q
  | [] => tame_pure _
  | c :: cs => (tame_addClause c).bind fun _ => tame_addClauses cs

end Encoder

theorem Atom.tame_addClause {ε : Type} {q : ε → Prop} (atoms : List Atom) :
    (addClause atoms : Encoder ε Unit).Tame q := by
  unfold addClause
  split
  · exact Step.tame_pure _
  · exact Encoder.tame_addClause _

namespace OrderVar

variable {ε : Type} {q : ε → Prop}

/-- An order encoding over some value. -/
theorem tame_encode {values : List Int} (h : values.isEmpty = false) :
    (encode values : Encoder ε OrderVar).Tame q := by
  cases values with
  | nil => cases h
  | cons u us =>
    exact (Encoder.tame_newLits _).bind fun _ => (Encoder.tame_addClauses _).bind fun _ =>
      Step.tame_pure _

/-- A lower bound is the opposite of an upper bound, one below. -/
theorem tame_ge (x : OrderVar) (v : Int) : (x.ge v).Tame := (Word.tame_sub v 1).map

theorem tame_steps : ∀ (values : List Int) (lits : List Lit), (steps values lits).Tame
  | u :: w :: us, _ :: ls => (Word.tame_sub w u).bind fun _ => (tame_steps (w :: us) ls).map
  | [], _ | [_], _ | _ :: _ :: _, [] => Checked.tame_ok []

theorem tame_eqAtom (x : OrderVar) (v : Int) : (x.eqAtom v : Encoder ε Atom).Tame q := by
  unfold eqAtom
  split
  · exact Step.tame_pure _
  · refine (Step.tame_checked (x.tame_ge v)).bind fun g => ?_
    dsimp only
    split
    · exact Step.tame_pure _
    · exact Step.tame_pure _
    · exact Step.tame_pure _
    · exact Encoder.tame_newLit.bind fun _ => (Encoder.tame_addClauses _).bind fun _ =>
        Step.tame_pure _
    · exact Step.tame_pure _

end OrderVar

namespace Totalizer

variable {ε : Type} {q : ε → Prop}

open Step

theorem tame_output (sums : Sums) (sum : Nat) :
    (output sums sum : Encoder ε (Lit × Sums)).Tame q := by
  unfold output
  split
  · exact tame_pure _
  · exact Encoder.tame_newLit.bind fun _ => tame_pure _

theorem tame_passOn (cap : Nat) : ∀ (outs : Outputs) (sums : Sums),
    (passOn cap sums outs : Encoder ε Sums).Tame q
  | [], _ => tame_pure _
  | _ :: rest, _ => (tame_output _ _).bind fun _ => (Encoder.tame_addClause _).bind fun _ =>
      tame_passOn cap rest _

theorem tame_addTo (cap sum : Nat) (l : Lit) : ∀ (outs : Outputs) (sums : Sums),
    (addTo cap sum l sums outs : Encoder ε Sums).Tame q
  | [], _ => tame_pure _
  | _ :: rest, _ => (tame_checked (Word.tame_addSize _ _)).bind fun _ =>
      (tame_output _ _).bind fun _ => (Encoder.tame_addClause _).bind fun _ =>
      tame_addTo cap sum l rest _

theorem tame_addPairs (cap : Nat) (right : Outputs) : ∀ (outs : Outputs) (sums : Sums),
    (addPairs cap right sums outs : Encoder ε Sums).Tame q
  | [], _ => tame_pure _
  | _ :: rest, _ => (tame_addTo cap _ _ right _).bind fun _ => tame_addPairs cap right rest _

theorem Tree.tame_encode (cap : Nat) : ∀ tree : Tree, (tree.encode cap : Encoder ε Outputs).Tame q
  | .leaf _ _ => tame_pure _
  | .node left right => (tame_encode cap left).bind fun _ => (tame_encode cap right).bind fun _ =>
      (tame_passOn cap _ _).bind fun _ => (tame_addPairs cap _ _ _).bind fun _ => tame_pure _

/-- **Totalizers** overflow only, in the cap, in a sum or in the number of variables. -/
theorem tame_encode (t : Totalizer) (bound : Nat) :
    (t.encode bound : Encoder ε Totalizer).Tame q := by
  have htree : ∀ inputs, (encodeInputs bound inputs : Encoder ε Outputs).Tame q := by
    intro inputs
    unfold encodeInputs
    split_ifs
    · exact tame_pure _
    · exact (tame_checked (Word.tame_addSize _ _)).bind fun _ => Tree.tame_encode _ _
  unfold encode
  split_ifs
  · exact tame_pure _
  · refine tame_get.bind fun _ => tame_get.bind fun _ => (htree _).bind fun _ => ?_
    exact tame_get.bind fun _ => tame_get.bind fun _ => tame_pure _

/-- A totalizer keeps the bound that it was encoded for. -/
theorem bound_encode {t u : Totalizer} {bound : Nat} {s s' : Cnf}
    (h : (t.encode bound : Encoder ε Totalizer) s = .ok u s') : u.bound = some bound := by
  unfold encode at h
  split_ifs at h with hbound
  · cases h
    exact hbound
  · obtain ⟨_, _, -, h₁⟩ := Step.bind_eq_ok.1 h
    obtain ⟨_, _, -, h₂⟩ := Step.bind_eq_ok.1 h₁
    obtain ⟨_, _, -, h₃⟩ := Step.bind_eq_ok.1 h₂
    obtain ⟨_, _, -, h₄⟩ := Step.bind_eq_ok.1 h₃
    obtain ⟨_, _, -, h₅⟩ := Step.bind_eq_ok.1 h₄
    cases h₅
    rfl

end Totalizer

namespace PseudoBoolean

open Failure

/-- A number that does not fit is reported. -/
theorem fails_fitting (v : Option Int) : Failure.Fails (· = .error .overflow) (fitting v) := by
  cases v with
  | some v => exact fails_ok v
  | none =>
    rintro e ⟨⟩
    rfl

theorem fails_addCoeff (var : Nat) (w : Int) :
    ∀ coeffs, Failure.Fails (· = .error .overflow) (addCoeff var w coeffs)
  | [] => (fails_fitting _).bind fun _ _ => fails_ok _
  | _ :: rest => by
    unfold addCoeff
    split_ifs
    · exact (fails_fitting _).bind fun _ _ => fails_ok _
    · exact (fails_fitting _).bind fun _ _ => fails_ok _
    · exact (fails_addCoeff var w rest).bind fun _ _ => fails_ok _

theorem fails_subCoeff (var : Nat) (w : Int) :
    ∀ coeffs, Failure.Fails (· = .error .overflow) (subCoeff var w coeffs)
  | [] => (fails_fitting _).bind fun _ _ => fails_ok _
  | _ :: rest => by
    unfold subCoeff
    split_ifs
    · exact (fails_fitting _).bind fun _ _ => fails_ok _
    · exact (fails_fitting _).bind fun _ _ => fails_ok _
    · exact (fails_subCoeff var w rest).bind fun _ _ => fails_ok _

/-- Coefficients are collected with checked arithmetic, so this never faults. -/
theorem fails_collect : ∀ (lits : List (Lit × Int)) (coeffs : List (Nat × Int)) (offset : Int),
    Failure.Fails (· = .error .overflow) (collect coeffs offset lits)
  | [], _, _ => fails_ok _
  | (l, w) :: rest, _, _ => by
    unfold collect
    split_ifs
    · exact (fails_subCoeff _ _ _).bind fun _ _ => (fails_fitting _).bind fun _ _ =>
        fails_collect rest _ _
    · exact (fails_addCoeff _ _ _).bind fun _ _ => fails_collect rest _ _

/-- A failure comes from a number that is reported, or from one of the coefficients: it is negative
and has no opposite. -/
def Unoriented (coeffs : List (Nat × Int)) (e : Failure EncodingError) : Prop :=
  e = .error .overflow ∨ e = .fault .neg ∧ ∃ c ∈ coeffs, c.2 < 0 ∧ ¬Word.InRange (-c.2)

theorem Unoriented.cons {coeffs : List (Nat × Int)} {e : Failure EncodingError} (c : Nat × Int)
    (h : Unoriented coeffs e) : Unoriented (c :: coeffs) e :=
  h.imp_right fun ⟨he, d, hd, hneg⟩ => ⟨he, d, List.mem_cons_of_mem c hd, hneg⟩

/-- Turning coefficients into weights, the sign of each negative one is changed. -/
theorem fails_orient : ∀ (coeffs : List (Nat × Int)) (offset : Int),
    Failure.Fails (Unoriented coeffs) (orient offset coeffs)
  | [], _ => fails_ok _
  | (x, c) :: rest, offset => by
    have hrest := fun o => (fails_orient rest o).mono fun _ he => he.cons (x, c)
    unfold orient
    split_ifs with hpos hlt
    · exact (hrest _).bind fun _ _ => fails_ok _
    · refine ((fails_fitting _).mono fun _ => .inl).bind fun _ _ =>
        (fails_checked fun t ht => ?_).bind fun _ _ => (hrest _).bind fun _ _ => fails_ok _
      obtain ⟨rfl, hrange⟩ := Word.neg_eq_error ht
      exact .inr ⟨rfl, (x, c), List.mem_cons_self, hlt, hrange⟩
    · exact hrest _

/-- **Normal forms** are given unless a number does not fit, which is reported, or the sign of a
collected coefficient cannot be changed, which is a fault. -/
theorem fails_normalize (lits : List (Lit × Int)) (bound : Int) :
    Failure.Fails (fun e => e = .error .overflow ∨ e = .fault .neg ∧ ∃ coeffs offset,
      collect [] 0 lits = .ok (coeffs, offset) ∧ ∃ c ∈ coeffs, c.2 < 0 ∧ ¬Word.InRange (-c.2))
      (normalize lits bound) := by
  refine ((fails_collect lits [] 0).mono fun _ => .inl).bind fun ⟨coeffs, offset⟩ hcollect => ?_
  refine ((fails_orient coeffs offset).mono fun e he => he.imp_right fun ⟨he, hc⟩ =>
    ⟨he, coeffs, offset, hcollect, hc⟩).bind fun _ _ => ?_
  -- What comes after is checked.
  refine ((fails_fitting _).mono fun _ => .inl).bind fun _ _ => ?_
  split_ifs
  · exact fails_ok _
  · refine ((fails_fitting _).mono fun _ => .inl).bind fun _ _ => ?_
    split_ifs
    · exact fails_ok _
    · exact fails_ok _

/-- Normal forms overflow only, with a report or without. -/
theorem tame_normalize (lits : List (Lit × Int)) (bound : Int) :
    Failure.Tame (· = .overflow) (normalize lits bound) := by
  refine (fails_normalize lits bound).mono ?_
  rintro e (rfl | ⟨rfl, -⟩)
  · rfl
  · trivial

/-- **Upper bounds.** The totalizer is asked for the bound that it was just encoded for. -/
theorem tame_encodeAtMost (lits : List (Lit × Int)) (bound : Int) :
    (encodeAtMost lits bound).Tame (· = .overflow) := by
  refine (Step.tame_except (tame_normalize lits bound)).bind fun normal => ?_
  cases normal with
  | tautology => exact Step.tame_pure _
  | unsat => exact Encoder.tame_addClause _
  | atMost ls b =>
    intro s e s' h
    rcases Step.bind_eq_error.1 h with hencode | ⟨t, s₁, hencode, h₁⟩
    · exact Totalizer.tame_encode _ _ s e s' hencode
    have henforce : ∀ e, t.enforce b = .error e → e = .overflow := by
      rw [Totalizer.enforce, if_pos (Totalizer.bound_encode hencode)]
      rintro e ⟨⟩
    exact (Step.tame_except (tame_ofExcept henforce)).bind (fun _ => Encoder.tame_addClauses _)
      s₁ e s' h₁

theorem tame_negateWeights : ∀ lits : List (Lit × Int), (negateWeights lits).Tame
  | [] => Checked.tame_ok _
  | (_, w) :: rest => (Word.tame_neg w).bind fun _ => (tame_negateWeights rest).map

/-- **Lower bounds.** The signs are changed, and the rest is an upper bound. -/
theorem tame_encodeAtLeast (lits : List (Lit × Int)) (bound : Int) :
    (encodeAtLeast lits bound).Tame (· = .overflow) := by
  have hfitting := (fails_fitting (Word.neg? bound)).mono fun e he =>
    (by rw [he]; rfl : e.Within (· = .overflow))
  exact (Step.tame_checked (tame_negateWeights lits)).bind fun _ =>
    (Step.tame_except hfitting).bind fun _ => tame_encodeAtMost _ _

end PseudoBoolean

end WeightedCsp

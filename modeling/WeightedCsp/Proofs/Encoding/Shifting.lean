import WeightedCsp.Proofs.Encoding.Order
import WeightedCsp.Proofs.Encoding.PseudoBoolean

/-!
# Encoding with other variables

Which fresh variables an encoder is given does not matter.  A `Shift` leaves the variables before
`start` alone and moves all others up by `gap`; it keeps their order.  An encoder that starts from
shifted inputs and a shifted supply of variables ends as it would have ended otherwise, with
everything it has made shifted, and fails where it would have failed, with the same error
(`Step.Twins`).  This is so as long as the shifted variables are variables of literals.

The relation is proved for one encoder after the other; the rules for sequencing take care of the
room for variables.
-/

namespace WeightedCsp

/-! ### Runs side by side -/

/-- How the states of two runs correspond. -/
structure Alignment (σ : Type) where
  /-- The state of the second run. -/
  image : σ → σ
  /-- The runs correspond from here. -/
  Valid : σ → Prop
  /-- The second run has room for its variables. -/
  Room : σ → Prop

namespace Step

variable {ε σ α β γ δ : Type}

/-- Two steps end in the same way from corresponding states, with results that are related, as long
as there is room and the precondition is true. -/
structure Twins (c : Alignment σ) (pre : Prop) (x : Step ε σ α) (y : Step ε σ β)
    (post : α → β → Prop) : Prop where
  /-- Room is never gained. -/
  back : x.Follows fun s t => c.Room t → c.Room s
  /-- The second step succeeds where the first one does. -/
  ok : pre → ∀ {s a t}, c.Valid s → c.Room t → x s = .ok a t →
    c.Valid t ∧ ∃ b, y (c.image s) = .ok b (c.image t) ∧ post a b
  /-- The second step fails where the first one does. -/
  error : pre → ∀ {s e t}, c.Valid s → c.Room t → x s = .error e t →
    y (c.image s) = .error e (c.image t)

/-- Two steps without results end in the same way. -/
abbrev Paired (c : Alignment σ) (x y : Step ε σ Unit) : Prop := Twins c True x y fun _ _ => True

/-- Two steps end in the same way, and the second result is a function of the first. -/
abbrev Shifts (c : Alignment σ) (F : α → β) (x : Step ε σ α) (y : Step ε σ β) : Prop :=
  Twins c True x y fun a b => b = F a

section Rules

variable {c : Alignment σ} {pre pre' : Prop} {x : Step ε σ α} {y : Step ε σ β}
  {post post' : α → β → Prop} {f : α → Step ε σ γ} {g : β → Step ε σ δ} {last : γ → δ → Prop}

theorem Twins.mono (h : Twins c pre x y post) (hpre : pre' → pre)
    (hpost : pre' → ∀ a b, post a b → post' a b) : Twins c pre' x y post' := by
  refine ⟨h.back, fun hp _ a _ hvalid hroom hx => ?_, fun hp _ _ _ => h.error (hpre hp)⟩
  obtain ⟨hvalid', b, hy, hab⟩ := h.ok (hpre hp) hvalid hroom hx
  exact ⟨hvalid', b, hy, hpost hp a b hab⟩

/-- Without a precondition, any may be added. -/
theorem Twins.anyway (h : Twins c True x y post) : Twins c pre x y post :=
  h.mono (fun _ => trivial) fun _ _ _ h => h

/-- The precondition may be used for more than the results. -/
theorem Twins.of_pre (hback : x.Follows fun s t => c.Room t → c.Room s)
    (h : pre → Twins c True x y post) : Twins c pre x y post :=
  ⟨hback, fun hp => (h hp).ok trivial, fun hp => (h hp).error trivial⟩

/-- Sequencing in general: from the second part it is asked that it gains no room, and that it
corresponds for related results. -/
theorem Twins.bind_of_back (hx : Twins c pre x y post)
    (hback : ∀ a, (f a).Follows fun s t => c.Room t → c.Room s)
    (hf : ∀ a b, post a b → Twins c pre (f a) (g b) last) :
    Twins c pre (x >>= f) (y >>= g) last := by
  refine ⟨hx.back.bind (fun h₁ h₂ hroom => h₁ (h₂ hroom)) hback, ?_, ?_⟩
  · intro hp s r t hvalid hroom h
    obtain ⟨a, s₁, hx₁, hf₁⟩ := Step.bind_eq_ok.1 h
    -- There is room at the end only, so it is carried back to the state between the two steps.
    obtain ⟨hvalid₁, b, hy₁, hab⟩ := hx.ok hp hvalid ((hback a).ok hf₁ hroom) hx₁
    obtain ⟨hvalid', r', hg, hlast⟩ := (hf a b hab).ok hp hvalid₁ hroom hf₁
    exact ⟨hvalid', r', Step.bind_eq_ok.2 ⟨b, _, hy₁, hg⟩, hlast⟩
  · intro hp s e t hvalid hroom h
    rcases Step.bind_eq_error.1 h with h₁ | ⟨a, s₁, hx₁, hf₁⟩
    · exact Step.bind_eq_error.2 (.inl (hx.error hp hvalid hroom h₁))
    · obtain ⟨hvalid₁, b, hy₁, hab⟩ := hx.ok hp hvalid ((hback a).error hf₁ hroom) hx₁
      exact Step.bind_eq_error.2 (.inr ⟨b, _, hy₁, (hf a b hab).error hp hvalid₁ hroom hf₁⟩)

/-- **Sequencing.** What follows may count on what is known of the results. -/
theorem Twins.bind [Nonempty β] (hx : Twins c pre x y post)
    (hf : ∀ a b, Twins c (pre ∧ post a b) (f a) (g b) last) :
    Twins c pre (x >>= f) (y >>= g) last :=
  hx.bind_of_back (fun a => (hf a (Classical.arbitrary β)).back) fun a b hab =>
    (hf a b).mono (fun hp => ⟨hp, hab⟩) fun _ _ _ h => h

/-- Sequencing where the second result is a function of the first, of which more is known. -/
theorem Twins.bindMap {F : α → β} {Q : α → Prop} (hx : Twins c pre x y fun a b => b = F a ∧ Q a)
    (hf : ∀ a, Twins c (pre ∧ Q a) (f a) (g (F a)) last) :
    Twins c pre (x >>= f) (y >>= g) last := by
  refine hx.bind_of_back (fun a => (hf a).back) ?_
  rintro a _ ⟨rfl, hQ⟩
  exact (hf a).mono (fun hp => ⟨hp, hQ⟩) fun _ _ _ h => h

theorem Twins.bindEq {F : α → β} (hx : Twins c pre x y fun a b => b = F a)
    (hf : ∀ a, Twins c pre (f a) (g (F a)) last) : Twins c pre (x >>= f) (y >>= g) last := by
  refine hx.bind_of_back (fun a => (hf a).back) ?_
  rintro a _ rfl
  exact hf a

theorem Shifts.bind {F : α → β} (hx : Shifts c F x y)
    (hf : ∀ a, Twins c pre (f a) (g (F a)) last) : Twins c pre (x >>= f) (y >>= g) last :=
  (Twins.anyway hx).bindEq hf

theorem Paired.bind {x y : Step ε σ Unit} {f : Unit → Step ε σ γ} {g : Unit → Step ε σ δ}
    (hx : Paired c x y) (hf : Twins c pre (f ()) (g ()) last) :
    Twins c pre (x >>= f) (y >>= g) last :=
  (Twins.anyway hx).bind_of_back (fun _ => hf.back) fun _ _ _ => hf

theorem twins_pure {a : α} {b : β} (h : pre → post a b) :
    Twins c pre (pure a : Step ε σ α) (pure b) post := by
  refine ⟨fun _ hroom => hroom, ?_, fun _ _ _ _ _ _ hx => absurd hx (by simp)⟩
  intro hp s a' t hvalid _ hx
  obtain ⟨rfl, rfl⟩ := Step.pure_eq_ok.1 hx
  exact ⟨hvalid, b, rfl, h hp⟩

theorem shifts_pure {F : α → β} (a : α) : Shifts c F (pure a : Step ε σ α) (pure (F a)) :=
  twins_pure fun _ => rfl

theorem twins_fail (e : ε) : Twins c pre (fail e : Step ε σ α) (fail e : Step ε σ β) post := by
  refine ⟨fun _ hroom => hroom, fun _ _ _ _ _ _ hx => absurd hx (by simp), ?_⟩
  intro _ s e' t _ _ hx
  obtain ⟨rfl, rfl⟩ := Step.fail_eq_error.1 hx
  rfl

theorem twins_get :
    Twins c True (get : Step ε σ σ) get fun a b => b = c.image a ∧ c.Valid a := by
  refine ⟨fun _ hroom => hroom, ?_, fun _ _ _ _ _ _ hx => absurd hx (by simp)⟩
  intro _ s a t hvalid _ hx
  obtain ⟨rfl, rfl⟩ := Step.get_eq_ok.1 hx
  exact ⟨hvalid, _, rfl, rfl, hvalid⟩

theorem shifts_get : Shifts c c.image (get : Step ε σ σ) get :=
  twins_get.mono id fun _ _ _ h => h.1

/-- Computations without state of which the second gives a function of the result of the first. -/
theorem twins_checked {k : Checked α} {k' : Checked β} {F : α → β} (h : pre → k' = k.map F) :
    Twins c pre (liftM k : Step ε σ α) (liftM k') fun a b => b = F a ∧ k = .ok a := by
  refine ⟨fun s => ?_, fun hp s a t hvalid _ hx => ?_, fun hp s e t _ _ hx => ?_⟩
  · rw [Step.after_checked]
    exact id
  · obtain ⟨rfl, rfl⟩ := Step.checked_eq_ok.1 hx
    exact ⟨hvalid, F a, Step.checked_eq_ok.2 ⟨h hp, rfl⟩, rfl, rfl⟩
  · obtain ⟨⟨t', rfl, rfl⟩, rfl⟩ := Step.checked_eq_error.1 hx
    exact Step.checked_eq_error.2 ⟨⟨t', h hp, rfl⟩, rfl⟩

/-- Sequencing after the same computation without state. -/
theorem twins_checked_bind (k : Checked α) {f : α → Step ε σ γ} {g : α → Step ε σ δ}
    (hf : ∀ a, Twins c pre (f a) (g a) last) :
    Twins c pre (liftM k >>= f) (liftM k >>= g) last := by
  have hid : k = k.map id := by cases k <;> rfl
  exact (twins_checked fun _ => hid).bindMap fun a =>
    (hf a).mono (fun h => h.1) fun _ _ _ h => h

theorem twins_except {k : Except (Failure ε) α} {k' : Except (Failure ε) β} {F : α → β}
    (h : pre → k' = k.map F) :
    Twins c pre (liftM k : Step ε σ α) (liftM k') fun a b => b = F a := by
  refine ⟨fun s => ?_, fun hp s a t hvalid _ hx => ?_, fun hp s e t _ _ hx => ?_⟩
  · rw [Step.after_except]
    exact id
  · obtain ⟨rfl, rfl⟩ := Step.except_eq_ok.1 hx
    exact ⟨hvalid, F a, Step.except_eq_ok.2 ⟨h hp, rfl⟩, rfl⟩
  · obtain ⟨rfl, rfl⟩ := Step.except_eq_error.1 hx
    exact Step.except_eq_error.2 ⟨h hp, rfl⟩

end Rules

end Step

/-! ### Shifting -/

/-- The variables from `start` on are moved up by `gap`. -/
structure Shift where
  start : Nat
  gap : Nat

namespace Shift

variable (k : Shift)

/-- The shifted variable. -/
def var (x : Nat) : Nat := if x < k.start then x else x + k.gap

/-- The shifted literal. -/
def lit (l : Lit) : Lit := ⟨k.var l.var, l.neg⟩

/-- A shifted literal with something else. -/
def tagged {α : Type} (p : Lit × α) : Lit × α := (k.lit p.1, p.2)

/-- The shifted clause. -/
def clause (c : Clause) : Clause := c.map k.lit

/-- The shifted clauses and supply of variables. -/
def cnf (s : Cnf) : Cnf := ⟨s.next + k.gap, s.clauses.map k.clause⟩

/-- The shifted atom. -/
def atom : Atom → Atom
  | .true => .true
  | .false => .false
  | .lit l => .lit (k.lit l)

/-- The shifted encoding of a variable. -/
def orderVar (x : OrderVar) : OrderVar := ⟨x.values, x.lits.map k.lit⟩

/-- The variables below are variables of literals after shifting. -/
def limit : Nat := Lit.varLimit - k.gap

/-- Shifting keeps the order of variables. -/
theorem var_strictMono : StrictMono k.var := by
  intro x y hxy
  unfold var
  split_ifs <;> omega

/-- Different variables stay different. -/
theorem var_inj {x y : Nat} : k.var x = k.var y ↔ x = y := k.var_strictMono.injective.eq_iff

theorem var_of_lt {x : Nat} (h : x < k.start) : k.var x = x := if_pos h

theorem var_of_le {x : Nat} (h : k.start ≤ x) : k.var x = x + k.gap := if_neg (Nat.not_lt.2 h)

theorem lit_of_lt {l : Lit} (h : l.var < k.start) : k.lit l = l := by
  rw [lit, k.var_of_lt h]

@[simp]
theorem lit_not (l : Lit) : k.lit l.not = (k.lit l).not := rfl

@[simp]
theorem atom_not (a : Atom) : k.atom a.not = (k.atom a).not := by
  cases a <;> rfl

/-- Runs of an encoder from a supply of variables and from the shifted one. -/
def encoding : Alignment Cnf where
  image := k.cnf
  Valid s := k.start ≤ s.next
  Room s := s.next + k.gap ≤ Lit.varLimit

end Shift

namespace Encoder

open Step

variable {ε α β : Type} {k : Shift}

theorem Growing.back {x : Encoder ε α} (h : Growing x) :
    x.Follows fun s t => k.encoding.Room t → k.encoding.Room s :=
  fun s hroom => Nat.le_trans (Nat.add_le_add_right (h s).next_le _) hroom

theorem newLit_of_lt {s : Cnf} (h : s.next < Lit.varLimit) :
    (newLit : Encoder ε Lit) s = .ok ⟨s.next, false⟩ { s with next := s.next + 1 } := by
  have hpool : s.next + 1 < poolLimit := by
    unfold Lit.varLimit at h
    unfold poolLimit
    omega
  refine Step.bind_eq_ok.2 ⟨s.next, { s with next := s.next + 1 }, if_pos hpool, ?_⟩
  rw [Lit.ofVar_of_lt h]
  rfl

/-- A fresh variable is shifted, and it fits because there is room. -/
theorem twins_newLit : Twins k.encoding True (newLit : Encoder ε Lit) newLit
    fun l l' => l' = k.lit l ∧ l.var < k.limit := by
  refine ⟨growing_newLit.back, fun _ s l t hvalid hroom hx => ?_,
    fun _ s e t hvalid hroom hx => ?_⟩
  · have hvalid' : k.start ≤ s.next := hvalid
    have hroom' : t.next + k.gap ≤ Lit.varLimit := hroom
    obtain ⟨rfl, rfl⟩ := newLit_eq_ok hx (by omega)
    have hlt : s.next + k.gap < Lit.varLimit := by
      simp only at hroom'
      omega
    have hvar : k.var s.next = s.next + k.gap := k.var_of_le hvalid'
    have hfits : s.next < k.limit := Nat.lt_sub_of_add_lt hlt
    refine ⟨Nat.le_succ_of_le hvalid', k.lit ⟨s.next, false⟩, ?_, rfl, hfits⟩
    show newLit (k.cnf s) = _
    rw [newLit_of_lt hlt, Shift.lit, hvar]
    simp only [Shift.encoding, Shift.cnf, Nat.add_right_comm]
  · -- The supply gives out long after literals do.
    have hle := (growing_newLit.error hx).next_le
    have hroom' : t.next + k.gap ≤ Lit.varLimit := hroom
    have hpool : s.next + 1 < poolLimit := by
      unfold Lit.varLimit at hroom'
      unfold poolLimit
      omega
    rcases Step.bind_eq_error.1 hx with hvar | ⟨_, _, -, hpure⟩
    · unfold newVar at hvar
      rw [if_pos hpool] at hvar
      cases hvar
    · exact absurd hpure (by simp)

theorem twins_newLits (n : Nat) : Twins k.encoding True (newLits n : Encoder ε (List Lit))
    (newLits n) fun ls ls' => ls' = ls.map k.lit ∧ ∀ l ∈ ls, l.var < k.limit := by
  induction n with
  | zero => exact twins_pure fun _ => ⟨rfl, by simp⟩
  | succ n ih =>
    refine twins_newLit.bindMap fun l => ?_
    refine ih.anyway.bindMap fun ls => ?_
    exact twins_pure fun h => ⟨rfl, List.forall_mem_cons.2 ⟨h.1.2, h.2⟩⟩

theorem paired_addClause (c : Clause) :
    Paired k.encoding (addClause c : Encoder ε Unit) (addClause (k.clause c)) := by
  refine ⟨(growing_addClause c).back, fun _ s u t hvalid _ hx => ?_, fun _ _ _ _ _ _ hx => ?_⟩
  · cases hx
    refine ⟨hvalid, (), ?_, trivial⟩
    show addClause (k.clause c) (k.cnf s) = .ok () (k.cnf { s with clauses := s.clauses.push c })
    simp [addClause, Shift.cnf]
  · cases hx

theorem paired_addClauses (cs : List Clause) :
    Paired k.encoding (addClauses cs : Encoder ε Unit) (addClauses (cs.map k.clause)) := by
  induction cs with
  | nil => exact twins_pure fun _ => trivial
  | cons c cs ih => exact (paired_addClause c).bind ih

end Encoder

/-! ### Order encoding -/

namespace Shift

variable (k : Shift)

/-- Whether atoms make a clause does not hang on the names of variables. -/
theorem clause?_map (atoms : List Atom) :
    Atom.clause? (atoms.map k.atom) = (Atom.clause? atoms).map k.clause := by
  induction atoms with
  | nil => rfl
  | cons a atoms ih =>
    cases a with
    | true => rfl
    | false => exact ih
    | lit l =>
      simp only [List.map_cons, atom, Atom.clause?, ih, Option.map_map]
      rfl

/-- Upper bounds of a shifted variable are shifted. -/
theorem le_orderVar (x : OrderVar) (v : Int) : (k.orderVar x).le v = k.atom (x.le v) := by
  unfold OrderVar.le
  -- A search reads the values only, which are those of `x`.
  show (if v < x.lb then Atom.false else if x.ub ≤ v then Atom.true
    else ((x.lits.map k.lit)[x.placeBelow v]?).elim Atom.false .lit) = _
  split_ifs
  · rfl
  · rfl
  · rw [List.getElem?_map]
    cases x.lits[x.placeBelow v]? <;> rfl

/-- Lower bounds of a shifted variable are shifted, and fault where they did. -/
theorem ge_orderVar (x : OrderVar) (v : Int) : (k.orderVar x).ge v = (x.ge v).map k.atom := by
  unfold OrderVar.ge
  cases Word.sub v 1 with
  | error t => rfl
  | ok u => exact congrArg Except.ok (by rw [k.le_orderVar, k.atom_not])

theorem steps_map (us : List Int) (ls : List Lit) :
    OrderVar.steps us (ls.map k.lit) = (OrderVar.steps us ls).map (List.map k.tagged) := by
  induction us generalizing ls with
  | nil => rfl
  | cons u us ih =>
    cases us with
    | nil => cases ls <;> rfl
    | cons w us =>
      cases ls with
      | nil => rfl
      | cons l ls =>
        simp only [List.map_cons, OrderVar.steps, ih ls]
        cases Word.sub w u with
        | error t => rfl
        | ok d => cases OrderVar.steps (w :: us) ls <;> rfl

theorem chain_map (ls : List Lit) :
    OrderVar.chain (ls.map k.lit) = (OrderVar.chain ls).map k.clause := by
  induction ls with
  | nil => rfl
  | cons l ls ih =>
    cases ls with
    | nil => rfl
    | cons l' ls => exact congrArg (_ :: ·) ih

end Shift

namespace Encoder

open Step

variable {ε : Type} {k : Shift}

theorem paired_atomClause (atoms : List Atom) : Paired k.encoding
    (Atom.addClause atoms : Encoder ε Unit) (Atom.addClause (atoms.map k.atom)) := by
  unfold Atom.addClause
  rw [k.clause?_map]
  cases Atom.clause? atoms with
  | none => exact twins_pure fun _ => trivial
  | some c => exact paired_addClause c

/-- A variable is encoded with shifted literals. -/
theorem twins_orderVar (values : List Int) :
    Twins k.encoding True (OrderVar.encode values : Encoder ε OrderVar) (OrderVar.encode values)
      fun x x' => x' = k.orderVar x ∧ ∀ l ∈ x.lits, l.var < k.limit := by
  by_cases hempty : values.isEmpty = true
  · refine ⟨(OrderVar.growing_encode values).back, fun _ _ _ _ _ _ hx => ?_,
      fun _ _ _ _ _ _ hx => ?_⟩
    · simp only [OrderVar.encode, hempty, ↓reduceIte] at hx
      cases hx
    · simp only [OrderVar.encode, hempty, ↓reduceIte] at hx ⊢
      cases hx
      rfl
  · simp only [OrderVar.encode, hempty, Bool.false_eq_true, ↓reduceIte]
    refine (twins_newLits _).bindMap fun ls => ?_
    rw [k.chain_map]
    exact (paired_addClauses _).bind (twins_pure fun h => ⟨rfl, h.2⟩)

/-- An equality is looked up or made, with a shifted literal. -/
theorem shifts_eqAtom (x : OrderVar) (v : Int) : Shifts k.encoding k.atom
    (x.eqAtom v : Encoder ε Atom) ((k.orderVar x).eqAtom v) := by
  unfold OrderVar.eqAtom
  rw [show (k.orderVar x).search v = x.search v from rfl]
  cases x.search v with
  | error i => exact shifts_pure Atom.false
  | ok i =>
    simp only [k.le_orderVar, k.ge_orderVar]
    refine (twins_checked (F := k.atom) fun _ => rfl).bindMap fun g => ?_
    rw [← k.atom_not]
    cases x.le v with
    | true => cases g.not <;> exact twins_pure fun _ => rfl
    | false => cases g.not <;> exact twins_pure fun _ => rfl
    | lit l =>
      cases g.not with
      | true | false => exact twins_pure fun _ => rfl
      | lit l' =>
        refine twins_newLit.anyway.bindMap fun e => ?_
        exact (paired_addClauses [[e.not, l], [e.not, l'.not], [e, l.not, l']]).bind
          (twins_pure fun _ => rfl)

end Encoder

/-! ### Totalizers -/

namespace Shift

open Totalizer (Tree Sums)

variable (k : Shift)

/-- The shifted output. -/
def output (o : Nat × Lit) : Nat × Lit := (o.1, k.lit o.2)

/-- The shifted tree. -/
def tree : Tree → Tree
  | .leaf l w => .leaf (k.lit l) w
  | .node left right => .node (tree left) (tree right)

/-- The shifted totalizer. -/
def totalizer (t : Totalizer) : Totalizer :=
  { t with inputs := t.inputs.map k.tagged, outputs := t.outputs.map k.output }

/-- The outputs of a node correspond while they are being made. -/
def Matches (sums sums' : Sums) : Prop := ∀ i : Nat, sums'[i]? = sums[i]?.map k.lit

variable {k}

theorem Matches.insert {sums sums' : Sums} (h : k.Matches sums sums') (i : Nat) (l : Lit) :
    k.Matches (sums.insert i l) (sums'.insert i (k.lit l)) := by
  intro j
  rw [Std.TreeMap.getElem?_insert, Std.TreeMap.getElem?_insert]
  split_ifs
  · rfl
  · exact h j

/-- Corresponding outputs are listed in the same order, as the order is that of the sums. -/
theorem Matches.toList {sums sums' : Sums} (h : k.Matches sums sums') :
    sums'.toList = sums.toList.map k.output := by
  -- The sums may have been entered in another order; as maps they are equivalent.
  have hequiv : sums'.Equiv (sums.map fun _ => k.lit) := by
    refine Std.TreeMap.Equiv.of_forall_constGet?_eq fun i => ?_
    rw [h i, Std.TreeMap.getElem?_map]
  rw [hequiv.toList_eq, Std.TreeMap.toList_map]
  rfl

/-- A tree is built by the number of its inputs only. -/
theorem build_map (inputs : List WeightedLit) (h : inputs ≠ [])
    (h' : inputs.map k.tagged ≠ []) :
    Tree.build (inputs.map k.tagged) h' = k.tree (Tree.build inputs h) := by
  fun_induction Tree.build inputs h with
  | case1 inputs h hlt =>
    rw [Tree.build, dif_pos (by simpa using hlt), List.head_map]
    rfl
  | case2 inputs h hlt ihleft ihright =>
    have hleft : (inputs.take (inputs.length / 2)).map k.tagged ≠ [] := by
      simp only [ne_eq, List.map_eq_nil_iff, List.take_eq_nil_iff, h, or_false]
      omega
    have hright : (inputs.drop (inputs.length / 2)).map k.tagged ≠ [] := by
      simp only [ne_eq, List.map_eq_nil_iff, List.drop_eq_nil_iff]
      omega
    rw [Tree.build, dif_neg (by simpa using hlt), tree, ← ihleft hleft, ← ihright hright]
    simp only [List.length_map, List.map_take, List.map_drop]

/-- The inputs of the tree are chosen and sorted by their weights only. -/
theorem treeInputs_map (bound : Nat) (inputs : List WeightedLit) :
    Totalizer.treeInputs bound (inputs.map k.tagged) =
      (Totalizer.treeInputs bound inputs).map k.tagged := by
  unfold Totalizer.treeInputs
  rw [List.filter_map]
  refine (List.map_mergeSort ?_).symm
  exact fun _ _ _ _ => rfl

end Shift

namespace Totalizer

open Step Encoder

variable {ε : Type} {k : Shift}

theorem twins_output (sums sums' : Sums) (i : Nat) :
    Twins k.encoding (k.Matches sums sums') (output sums i : Encoder ε (Lit × Sums))
      (output sums' i) fun p p' => p'.1 = k.lit p.1 ∧ k.Matches p.2 p'.2 := by
  refine .of_pre (growing_output sums i).back fun h => ?_
  unfold output
  rw [h i]
  cases sums[i]? with
  | some l => exact twins_pure fun _ => ⟨rfl, h⟩
  | none => exact twins_newLit.bindMap fun l => twins_pure fun _ => ⟨rfl, h.insert i l⟩

theorem twins_passOn (cap : Nat) (outs : Outputs) (sums sums' : Sums) :
    Twins k.encoding (k.Matches sums sums') (passOn cap sums outs : Encoder ε Sums)
      (passOn cap sums' (outs.map k.output)) k.Matches := by
  induction outs generalizing sums sums' with
  | nil => exact twins_pure id
  | cons o outs ih =>
    refine (twins_output sums sums' _).bind fun p p' => ?_
    refine .of_pre ((growing_addClause _).bind fun _ => growing_passOn cap outs _).back ?_
    rintro ⟨-, hlit, hsums⟩
    simp only [hlit]
    exact (paired_addClause [o.2.not, p.1]).bind
      ((ih p.2 p'.2).mono (fun _ => hsums) fun _ _ _ h => h)

theorem twins_addTo (cap sum : Nat) (l : Lit) (outs : Outputs) (sums sums' : Sums) :
    Twins k.encoding (k.Matches sums sums') (addTo cap sum l sums outs : Encoder ε Sums)
      (addTo cap sum (k.lit l) sums' (outs.map k.output)) k.Matches := by
  induction outs generalizing sums sums' with
  | nil => exact twins_pure id
  | cons o outs ih =>
    refine twins_checked_bind _ fun total => ?_
    refine (twins_output sums sums' _).bind fun p p' => ?_
    refine .of_pre ((growing_addClause _).bind fun _ => growing_addTo cap sum l outs _).back ?_
    rintro ⟨-, hlit, hsums⟩
    simp only [hlit]
    exact (paired_addClause [l.not, o.2.not, p.1]).bind
      ((ih p.2 p'.2).mono (fun _ => hsums) fun _ _ _ h => h)

theorem twins_addPairs (cap : Nat) (right left : Outputs) (sums sums' : Sums) :
    Twins k.encoding (k.Matches sums sums') (addPairs cap right sums left : Encoder ε Sums)
      (addPairs cap (right.map k.output) sums' (left.map k.output)) k.Matches := by
  induction left generalizing sums sums' with
  | nil => exact twins_pure id
  | cons o left ih =>
    refine (twins_addTo cap o.1 o.2 right sums sums').bind fun sums₁ sums₁' => ?_
    exact (ih sums₁ sums₁').mono (fun h => h.2) fun _ _ _ h => h

theorem shifts_encodeTree (cap : Nat) (tree : Tree) : Shifts k.encoding (List.map k.output)
    (tree.encode cap : Encoder ε Outputs) ((k.tree tree).encode cap) := by
  induction tree with
  | leaf l w => exact shifts_pure _
  | node left right ihleft ihright =>
    refine ihleft.bind fun ls => ihright.bind fun rs => ?_
    rw [← List.map_append]
    have hempty : k.Matches ∅ ∅ := fun i => by simp
    refine (twins_passOn cap (ls ++ rs) ∅ ∅).mono (fun _ => hempty) (fun _ _ _ h => h) |>.bind
      fun sums sums' => ?_
    refine (twins_addPairs cap rs ls sums sums').mono (fun h => h.2) (fun _ _ _ h => h) |>.bind
      fun sums₁ sums₁' => ?_
    exact twins_pure fun h => h.2.toList

theorem shifts_encodeInputs (bound : Nat) (inputs : List WeightedLit) :
    Shifts k.encoding (List.map k.output) (encodeInputs bound inputs : Encoder ε Outputs)
      (encodeInputs bound (inputs.map k.tagged)) := by
  unfold encodeInputs
  by_cases hempty : inputs = []
  · subst hempty
    exact shifts_pure _
  · have hempty' : inputs.map k.tagged ≠ [] := by simpa using hempty
    rw [dif_neg hempty, dif_neg hempty', k.build_map inputs hempty]
    exact twins_checked_bind _ fun cap => shifts_encodeTree cap _

/-- **Totalizers** are encoded alike, for whatever bound. -/
theorem shifts_encode (t : Totalizer) (bound : Nat) : Shifts k.encoding k.totalizer
    (t.encode bound : Encoder ε Totalizer) ((k.totalizer t).encode bound) := by
  unfold encode
  show Shifts _ _ _ (if t.bound = some bound then _ else _)
  split_ifs
  · exact shifts_pure t
  · refine shifts_get.bind fun s₁ => shifts_get.bind fun s₂ => ?_
    rw [show (k.totalizer t).inputs = t.inputs.map k.tagged from rfl, k.treeInputs_map]
    refine (shifts_encodeInputs bound _).bind fun outs => ?_
    refine shifts_get.bind fun s₃ => shifts_get.bind fun s₄ => twins_pure fun _ => ?_
    -- Only differences and numbers of clauses are read off the supply.
    simp [Shift.totalizer, Shift.encoding, Shift.cnf, Nat.add_sub_add_right]

/-- The units of a bound are shifted, and refused where they were. -/
theorem enforce_totalizer (t : Totalizer) (bound : Nat) :
    (k.totalizer t).enforce bound = (t.enforce bound).map (List.map k.lit) := by
  unfold enforce
  show (if t.bound = some bound then _ else _) = _
  split_ifs
  · simp only [Except.map, Shift.totalizer, List.filter_map, List.map_append, List.map_map]
    rfl
  · rfl

end Totalizer

/-! ### Pseudo-Boolean constraints -/

namespace Shift

open PseudoBoolean

variable (k : Shift)

/-- The coefficient of the shifted variable. -/
def coeff (p : Nat × Int) : Nat × Int := (k.var p.1, p.2)

/-- The shifted normal form. -/
def normal : Normal → Normal
  | .tautology => .tautology
  | .unsat => .unsat
  | .atMost lits bound => .atMost (lits.map k.tagged) bound

/-- Coefficients are kept in the order of their variables, which shifting keeps. -/
theorem addCoeff_map (x : Nat) (w : Int) (cs : List (Nat × Int)) :
    addCoeff (k.var x) w (cs.map k.coeff) = (addCoeff x w cs).map (List.map k.coeff) := by
  induction cs with
  | nil =>
    simp only [List.map_nil, addCoeff]
    cases fitting (Word.add? 0 w) <;> rfl
  | cons c cs ih =>
    simp only [List.map_cons, coeff, addCoeff, k.var_inj, k.var_strictMono.lt_iff_lt]
    split_ifs
    · cases fitting (Word.add? c.2 w) <;> rfl
    · cases fitting (Word.add? 0 w) <;> rfl
    · rw [ih]
      cases addCoeff x w cs <;> rfl

theorem subCoeff_map (x : Nat) (w : Int) (cs : List (Nat × Int)) :
    subCoeff (k.var x) w (cs.map k.coeff) = (subCoeff x w cs).map (List.map k.coeff) := by
  induction cs with
  | nil =>
    simp only [List.map_nil, subCoeff]
    cases fitting (Word.sub? 0 w) <;> rfl
  | cons c cs ih =>
    simp only [List.map_cons, coeff, subCoeff, k.var_inj, k.var_strictMono.lt_iff_lt]
    split_ifs
    · cases fitting (Word.sub? c.2 w) <;> rfl
    · cases fitting (Word.sub? 0 w) <;> rfl
    · rw [ih]
      cases subCoeff x w cs <;> rfl

/-- Coefficients are collected in the order of variables, which shifting keeps. -/
theorem collect_map (cs : List (Nat × Int)) (offset : Int) (lits : List (Lit × Int)) :
    collect (cs.map k.coeff) offset (lits.map k.tagged) =
      (collect cs offset lits).map fun r => (r.1.map k.coeff, r.2) := by
  induction lits generalizing cs offset with
  | nil => rfl
  | cons p lits ih =>
    simp only [List.map_cons, tagged, collect, lit, addCoeff_map, subCoeff_map]
    split_ifs
    · cases subCoeff p.1.var p.2 cs with
      | error e => rfl
      | ok cs' =>
        cases fitting (Word.add? offset p.2) with
        | error e => rfl
        | ok offset' => exact ih cs' offset'
    · cases addCoeff p.1.var p.2 cs with
      | error e => rfl
      | ok cs' => exact ih cs' offset

theorem var_lt_varLimit {x : Nat} (h : x < k.limit) :
    x < Lit.varLimit ∧ k.var x < Lit.varLimit := by
  unfold limit at h
  unfold var
  split_ifs <;> omega

/-- Below the limit, a shifted variable makes a shifted literal. -/
theorem ofVar_var {x : Nat} (h : x < k.limit) (neg : Bool) :
    Lit.ofVar (k.var x) neg = k.lit (Lit.ofVar x neg) := by
  obtain ⟨hx, hvar⟩ := k.var_lt_varLimit h
  rw [Lit.ofVar_of_lt hx, Lit.ofVar_of_lt hvar]
  rfl

/-- Coefficients are turned into weights alike. -/
theorem orient_map {cs : List (Nat × Int)} (h : KeysIn (· < k.limit) cs) (offset : Int) :
    orient offset (cs.map k.coeff) =
      (orient offset cs).map fun r => (r.1.map k.tagged, r.2) := by
  induction cs generalizing offset with
  | nil => rfl
  | cons c cs ih =>
    simp only [List.map_cons, coeff, orient, k.ofVar_var h.head]
    split_ifs
    · rw [ih h.tail]
      cases orient offset cs <;> rfl
    · -- Both runs share the two arithmetic steps, which do not look at the variable.
      cases fitting (Word.add? offset c.2) with
      | error e => rfl
      | ok offset' =>
        cases Word.neg c.2 with
        | error t => rfl
        | ok w =>
          show (orient offset' (cs.map k.coeff) >>= fun r =>
              pure ((k.lit (Lit.ofVar c.1 true), w) :: r.1, r.2)) =
            (orient offset' cs >>= fun r => pure ((Lit.ofVar c.1 true, w) :: r.1, r.2)).map
              fun r => (r.1.map k.tagged, r.2)
          rw [ih h.tail]
          cases orient offset' cs <;> rfl
    · exact ih h.tail offset

/-- The normal form of an upper bound on oriented literals. -/
def settle (bound : Int) (r : List (Lit × Int) × Int) : Except (Failure EncodingError) Normal := do
  let bound ← fitting (Word.sub? bound r.2)
  if bound < 0 then return .unsat
  let sum ← fitting (Word.sum? (r.1.map (·.2)))
  if sum ≤ bound then return .tautology
  return .atMost (r.1.map fun (l, w) => (l, w.toNat)) bound.toNat

/-- A normal form is computed in three parts. -/
theorem normalize_eq (lits : List (Lit × Int)) (bound : Int) : normalize lits bound =
    collect [] 0 lits >>= fun r => orient r.2 r.1 >>= settle bound := rfl

theorem settle_map (bound : Int) (r : List (Lit × Int) × Int) :
    settle bound (r.1.map k.tagged, r.2) = (settle bound r).map k.normal := by
  -- Only the weights decide what is settled, and shifting keeps them.
  have hweights : (r.1.map k.tagged).map (·.2) = r.1.map (·.2) := by
    rw [List.map_map]
    rfl
  unfold settle
  simp only [hweights]
  cases fitting (Word.sub? bound r.2) with
  | error e => rfl
  | ok bound' =>
    show (if bound' < 0 then _ else _) = Except.map k.normal (if bound' < 0 then _ else _)
    split_ifs
    · rfl
    · cases fitting (Word.sum? (r.1.map (·.2))) with
      | error e => rfl
      | ok sum =>
        show (if sum ≤ bound' then _ else _) = Except.map k.normal (if sum ≤ bound' then _ else _)
        split_ifs
        · rfl
        · refine congrArg Except.ok ?_
          simp only [normal, List.map_map]
          rfl

/-- **Normal forms** are shifted, as long as all variables are below the limit. -/
theorem normalize_map {lits : List (Lit × Int)} (h : ∀ p ∈ lits, p.1.var < k.limit) (bound : Int) :
    normalize (lits.map k.tagged) bound = (normalize lits bound).map k.normal := by
  have hcollect := k.collect_map [] 0 lits
  rw [List.map_nil] at hcollect
  rw [normalize_eq, normalize_eq, hcollect]
  cases hcs : collect [] 0 lits with
  | error e => rfl
  | ok r =>
    have hkeys : KeysIn (· < k.limit) r.1 := (total_collect hcs).2 _ h (by simp [KeysIn])
    show orient r.2 (r.1.map k.coeff) >>= settle bound =
      (orient r.2 r.1 >>= settle bound).map k.normal
    rw [k.orient_map hkeys]
    cases orient r.2 r.1 with
    | error e => rfl
    | ok q => exact k.settle_map bound q

end Shift

namespace PseudoBoolean

open Step Encoder

variable {k : Shift}

/-- **Upper bounds** are encoded alike. -/
theorem twins_encodeAtMost (lits : List (Lit × Int)) (bound : Int) :
    Twins k.encoding (∀ p ∈ lits, p.1.var < k.limit) (encodeAtMost lits bound)
      (encodeAtMost (lits.map k.tagged) bound) fun _ _ => True := by
  refine (twins_except fun h => k.normalize_map h bound).bindEq fun normal => ?_
  cases normal with
  | tautology => exact twins_pure fun _ => trivial
  | unsat => exact (paired_addClause []).anyway
  | atMost ls bound' =>
    refine (Totalizer.shifts_encode (Totalizer.ofInputs ls) bound').bind fun t => ?_
    rw [Totalizer.enforce_totalizer]
    refine (twins_except (F := List.map k.lit) fun _ => ?_).bindEq fun units => ?_
    · cases t.enforce bound' <;> rfl
    · have hunits : (units.map k.lit).map (fun l => [l]) =
          (units.map fun l => [l]).map k.clause := by
        rw [List.map_map, List.map_map]
        rfl
      rw [hunits]
      exact (paired_addClauses _).anyway

theorem negateWeights_map (lits : List (Lit × Int)) :
    negateWeights (lits.map k.tagged) = (negateWeights lits).map (List.map k.tagged) := by
  induction lits with
  | nil => rfl
  | cons p lits ih =>
    simp only [List.map_cons, Shift.tagged, negateWeights]
    cases Word.neg p.2 with
    | error t => rfl
    | ok w =>
      show (negateWeights (lits.map k.tagged) >>= fun r => pure ((k.lit p.1, w) :: r)) =
        (negateWeights lits >>= fun r => pure ((p.1, w) :: r)).map (List.map k.tagged)
      rw [ih]
      cases negateWeights lits <;> rfl

/-- **Lower bounds** are encoded alike. -/
theorem twins_encodeAtLeast (lits : List (Lit × Int)) (bound : Int) :
    Twins k.encoding (∀ p ∈ lits, p.1.var < k.limit) (encodeAtLeast lits bound)
      (encodeAtLeast (lits.map k.tagged) bound) fun _ _ => True := by
  refine (twins_checked fun _ => negateWeights_map lits).bindMap fun negated => ?_
  refine (twins_except (F := id) fun _ => ?_).bindEq fun bound' => ?_
  · cases fitting (Word.neg? bound) <;> rfl
  · exact (twins_encodeAtMost negated bound').mono
      (fun h => (negateWeights_eq_ok h.2).2 (· < k.limit) h.1) fun _ _ _ h => h

end PseudoBoolean

end WeightedCsp

import Mathlib.Algebra.Order.BigOperators.Group.List
import WeightedCsp.Method.Report
import WeightedCsp.Proofs.Model

/-!
# Totals of violations

Violations are added up in two ways.  Each price has a total, and a total that leaves the machine
range is a fault; the weighted sum of all soft violations is given up instead.  Whatever the amounts
are, as long as none is negative, the partial sums never exceed the final ones.  So the totals can
be formed exactly if the final ones fit, and then they go with the tiers of the model
(`tierTotals_eq_ok_iff`); and the weighted sum is given exactly if it fits (`objective?_eq_fit?`).
The two agree: the weighted sum of the totals is the weighted sum of the violations
(`Model.sum_tiers`).

The amounts are a parameter, since they come from values of the domains on one occasion and from any
solution on another.
-/

namespace WeightedCsp

/-- A sum that is passed on has to fit, and nothing else can go wrong. -/
theorem Word.add_bind_eq_ok_iff {α : Type} {a b : Int} {f : Int → α} {y : α} :
    (add a b >>= fun x => pure (f x) : Checked α) = .ok y ↔ InRange (a + b) ∧ y = f (a + b) := by
  rw [Checked.bind_eq_ok]
  constructor
  · rintro ⟨x, hx, ⟨⟩⟩
    obtain ⟨hrange, rfl⟩ := fit_eq_ok_iff.1 hx
    exact ⟨hrange, rfl⟩
  · rintro ⟨hrange, rfl⟩
    exact ⟨_, fit_eq_ok_iff.2 ⟨hrange, rfl⟩, rfl⟩

/-- The violation of a constraint by the amount that it is given. -/
def Constraint.chargedBy (amount : Constraint → Int) (c : Constraint) : Violation :=
  ⟨c.name, c.weight, amount c⟩

variable {amount : Constraint → Int} {c : Constraint} {cs : List Constraint} {t : Tier}
  {ts : List Tier} {price : Nat}

namespace Tier

/-- The total violation of a tier. -/
def total (amount : Constraint → Int) (t : Tier) : Int := (t.members.map amount).sum

/-- The price of a tier with its total. -/
def entry (amount : Constraint → Int) (t : Tier) : Nat × Int := (t.price, t.total amount)

/-- Every total fits a machine word. -/
def TotalsFit (amount : Constraint → Int) (ts : List Tier) : Prop :=
  ∀ t ∈ ts, Word.InRange (t.total amount)

/-- The tiers with one more constraint. -/
def add (ts : List Tier) (c : Constraint) : List Tier :=
  match c.weight with
  | .hard => ts
  | .soft w => insert w c ts

/-- Tiers are collected from left to right. -/
theorem ofConstraints_eq_foldl (cs : List Constraint) : ofConstraints cs = cs.foldl add [] := rfl

theorem add_hard (hc : c.weight = .hard) (ts : List Tier) : add ts c = ts := by
  simp only [add, hc]

theorem add_soft (hc : c.weight = .soft price) (ts : List Tier) : add ts c = insert price c ts := by
  simp only [add, hc]

@[simp]
theorem total_singleton (amount : Constraint → Int) (price : Nat) (c : Constraint) :
    total amount ⟨price, [c]⟩ = amount c := by
  simp [total]

@[simp]
theorem total_concat (amount : Constraint → Int) (t : Tier) (c : Constraint) :
    total amount { t with members := t.members ++ [c] } = t.total amount + amount c := by
  simp [total]

theorem total_nonneg (hpos : ∀ c, 0 ≤ amount c) (t : Tier) : 0 ≤ t.total amount := by
  refine List.sum_nonneg fun x hx => ?_
  obtain ⟨c, -, rfl⟩ := List.mem_map.1 hx
  exact hpos c

theorem totalsFit_nil : TotalsFit amount [] := List.forall_mem_nil _

theorem totalsFit_cons : TotalsFit amount (t :: ts) ↔
    Word.InRange (t.total amount) ∧ TotalsFit amount ts := List.forall_mem_cons

/-- What is put into a tier makes its total no smaller. -/
theorem TotalsFit.of_insert (hpos : ∀ c, 0 ≤ amount c) (h : TotalsFit amount (insert price c ts)) :
    TotalsFit amount ts := by
  induction ts with
  | nil => exact totalsFit_nil
  | cons t ts ih =>
    unfold insert at h
    split_ifs at h with heq hlt
    · obtain ⟨hhead, hrest⟩ := totalsFit_cons.1 h
      rw [total_concat] at hhead
      have hc := hpos c
      have ht := total_nonneg hpos t
      have hzero : Word.InRange 0 := by decide
      exact totalsFit_cons.2 ⟨hzero.between hhead ht (by omega), hrest⟩
    · exact (totalsFit_cons.1 h).2
    · obtain ⟨hhead, hrest⟩ := totalsFit_cons.1 h
      exact totalsFit_cons.2 ⟨hhead, ih hrest⟩

/-- Totals only grow, so totals that fit in the end have always fit. -/
theorem TotalsFit.of_foldl (hpos : ∀ c, 0 ≤ amount c) (h : TotalsFit amount (cs.foldl add ts)) :
    TotalsFit amount ts := by
  induction cs generalizing ts with
  | nil => exact h
  | cons c cs ih =>
    have hfirst := ih h
    cases hweight : c.weight with
    | hard => rwa [add_hard hweight] at hfirst
    | soft w =>
      rw [add_soft hweight] at hfirst
      exact hfirst.of_insert hpos

end Tier

open Tier

/-! ### Totals of the tiers -/

namespace Report

variable {totals : List (Nat × Int)}

/-- **One amount.** The totals are kept in step with the tiers, as long as they fit. -/
theorem addToTier_eq_ok_iff (hts : TotalsFit amount ts) :
    addToTier price (amount c) (ts.map (entry amount)) = .ok totals ↔
      TotalsFit amount (Tier.insert price c ts) ∧
        totals = (Tier.insert price c ts).map (entry amount) := by
  -- Two cases begin a tier, one puts the constraint into a tier that is there.
  induction ts generalizing totals with
  | nil =>
    show (Word.add 0 (amount c) >>= fun x => pure [(price, x)]) = .ok totals ↔ _
    rw [Word.add_bind_eq_ok_iff, Tier.insert, totalsFit_cons, total_singleton, Int.zero_add]
    simp [entry, totalsFit_nil]
  | cons t ts ih =>
    obtain ⟨ht, hts⟩ := totalsFit_cons.1 hts
    rw [List.map_cons]
    show addToTier price (amount c) ((t.price, t.total amount) :: ts.map (entry amount)) = _ ↔ _
    unfold addToTier Tier.insert
    split_ifs with heq hlt
    · rw [Word.add_bind_eq_ok_iff, totalsFit_cons, total_concat]
      simp [entry, hts]
    · rw [Word.add_bind_eq_ok_iff, totalsFit_cons, totalsFit_cons, total_singleton, Int.zero_add]
      simp [entry, ht, hts]
    · rw [Checked.bind_eq_ok, totalsFit_cons]
      constructor
      · rintro ⟨rest, hrest, ⟨⟩⟩
        obtain ⟨hfit, rfl⟩ := (ih hts).1 hrest
        exact ⟨⟨ht, hfit⟩, rfl⟩
      · rintro ⟨⟨-, hfit⟩, rfl⟩
        exact ⟨_, (ih hts).2 ⟨hfit, rfl⟩, rfl⟩

/-- Adding up the totals succeeds if they fit in the end. -/
theorem tierTotals_foldl (hpos : ∀ c, 0 ≤ amount c) (hts : TotalsFit amount ts) :
    tierTotals (ts.map (entry amount)) (cs.map (·.chargedBy amount)) = .ok totals ↔
      TotalsFit amount (cs.foldl add ts) ∧ totals = (cs.foldl add ts).map (entry amount) := by
  induction cs generalizing ts with
  | nil =>
    show Except.ok _ = Except.ok totals ↔ _
    simp [hts, eq_comm]
  | cons c cs ih =>
    rw [List.map_cons, List.foldl_cons]
    unfold tierTotals Constraint.chargedBy
    cases hweight : c.weight with
    | hard =>
      rw [add_hard hweight]
      exact ih hts
    | soft w =>
      rw [add_soft hweight]
      show (addToTier w (amount c) (ts.map (entry amount)) >>= fun next =>
        tierTotals next (cs.map (·.chargedBy amount))) = .ok totals ↔ _
      simp only [Checked.bind_eq_ok, addToTier_eq_ok_iff hts]
      constructor
      · rintro ⟨next, ⟨hfit, rfl⟩, h⟩
        exact (ih hfit).1 h
      · -- Final totals that fit leave no room for a partial one that does not.
        intro h
        have hfit := h.1.of_foldl hpos
        exact ⟨_, ⟨hfit, rfl⟩, (ih hfit).2 h⟩

/-- **Totals.** They can be formed exactly if those of the tiers fit, and then they are those. -/
theorem tierTotals_eq_ok_iff (hpos : ∀ c, 0 ≤ amount c) (m : Model) :
    tierTotals [] (m.constraints.map (·.chargedBy amount)) = .ok totals ↔
      TotalsFit amount m.tiers ∧ totals = m.tiers.map (entry amount) :=
  tierTotals_foldl hpos totalsFit_nil

/-! ### The objective -/

/-- The weighted sum of the amounts of the soft ones among constraints. -/
def weighted (amount : Constraint → Int) (cs : List Constraint) : Int :=
  ((cs.filter (·.isSoft)).map fun c => (c.weight.price : Int) * amount c).sum

theorem weighted_cons_hard (hc : c.weight = .hard) (cs : List Constraint) :
    weighted amount (c :: cs) = weighted amount cs := by
  simp [weighted, Constraint.isSoft, hc, Weight.isHard]

theorem weighted_cons_soft (hc : c.weight = .soft price) (cs : List Constraint) :
    weighted amount (c :: cs) = (price : Int) * amount c + weighted amount cs := by
  simp [weighted, Constraint.isSoft, hc, Weight.isHard, Weight.price]

theorem weighted_nonneg (hpos : ∀ c, 0 ≤ amount c) (cs : List Constraint) :
    0 ≤ weighted amount cs := by
  refine List.sum_nonneg fun x hx => ?_
  obtain ⟨c, -, rfl⟩ := List.mem_map.1 hx
  exact Int.mul_nonneg (Int.natCast_nonneg _) (hpos c)

theorem objective?_cons_soft (acc : Int) (name : String) (price : Nat) (n : Int)
    (vs : List Violation) :
    objective? acc (⟨name, .soft price, n⟩ :: vs) =
      (do Word.add? acc (← Word.mul? price n)) >>= fun acc => objective? acc vs :=
  (bind_assoc (Word.mul? price n) _ _).symm

/-- **The objective** is the weighted sum, if that fits. -/
theorem objective?_eq_fit? (hpos : ∀ c, 0 ≤ amount c) (cs : List Constraint) {acc : Int}
    (hacc : 0 ≤ acc) (hfits : Word.InRange acc) :
    objective? acc (cs.map (·.chargedBy amount)) = Word.fit? (acc + weighted amount cs) := by
  induction cs generalizing acc with
  | nil => simp [objective?, weighted, Word.fit?, hfits]
  | cons c cs ih =>
    rw [List.map_cons, Constraint.chargedBy]
    cases hweight : c.weight with
    | hard =>
      rw [weighted_cons_hard hweight]
      exact ih hacc hfits
    | soft w =>
      rw [weighted_cons_soft hweight, objective?_cons_soft]
      -- What is still to come is not negative, so a partial sum that leaves the range is final.
      have hrest := weighted_nonneg hpos cs
      have hterm : 0 ≤ (w : Int) * amount c := Int.mul_nonneg (Int.natCast_nonneg w) (hpos c)
      by_cases hsum : Word.InRange (acc + (w : Int) * amount c)
      · have hmul : Word.InRange ((w : Int) * amount c) := by
          unfold Word.InRange Word.least at *
          omega
        simp only [Word.mul?, Word.add?, Word.fit?_of_inRange hmul, Word.fit?_of_inRange hsum,
          Option.bind_eq_bind, Option.bind_some]
        rw [ih (by omega) hsum, Int.add_assoc]
      · have hover : ¬Word.InRange (acc + ((w : Int) * amount c + weighted amount cs)) := by
          unfold Word.InRange Word.least Word.greatest at *
          omega
        have hnone : (do Word.add? acc (← Word.mul? w (amount c))) = none := by
          refine Option.bind_eq_none_iff.2 fun x hx => ?_
          obtain ⟨rfl, -⟩ := Word.mul?_eq_some hx
          exact if_neg hsum
        rw [hnone, Word.fit?, if_neg hover]
        rfl

end Report

/-! ### Both ways agree -/

namespace Tier

/-- Inserting a constraint adds its weighted amount. -/
theorem sum_insert (amount : Constraint → Int) (price : Nat) (c : Constraint) (ts : List Tier) :
    ((insert price c ts).map fun t => (t.price : Int) * t.total amount).sum =
      (ts.map fun t => (t.price : Int) * t.total amount).sum + price * amount c := by
  induction ts with
  | nil => simp [insert]
  | cons t ts ih =>
    unfold insert
    split_ifs with heq hlt
    · subst heq
      simp only [List.map_cons, List.sum_cons, total_concat, Int.mul_add]
      omega
    · simp only [List.map_cons, List.sum_cons, total_singleton]
      omega
    · simp only [List.map_cons, List.sum_cons, ih]
      omega

/-- Collecting constraints adds the weighted amounts of all of them. -/
theorem sum_foldl (amount : Constraint → Int) (cs : List Constraint) (ts : List Tier) :
    ((cs.foldl add ts).map fun t => (t.price : Int) * t.total amount).sum =
      (ts.map fun t => (t.price : Int) * t.total amount).sum + Report.weighted amount cs := by
  induction cs generalizing ts with
  | nil => simp [Report.weighted]
  | cons c cs ih =>
    rw [List.foldl_cons, ih]
    cases hweight : c.weight with
    | hard => rw [add_hard hweight, Report.weighted_cons_hard hweight]
    | soft w =>
      rw [add_soft hweight, Report.weighted_cons_soft hweight, sum_insert, Int.add_assoc]

end Tier

/-- The weighted sum of the totals is the weighted sum of the amounts. -/
theorem Model.sum_tiers (amount : Constraint → Int) (m : Model) :
    (m.tiers.map fun t => (t.price : Int) * t.total amount).sum =
      Report.weighted amount m.constraints := by
  rw [Model.tiers, ofConstraints_eq_foldl, sum_foldl]
  simp

end WeightedCsp

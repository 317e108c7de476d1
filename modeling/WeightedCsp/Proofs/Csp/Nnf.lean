import Mathlib.Logic.Basic
import WeightedCsp.Csp.Expr

/-!
# Negation normal form

In the normal form of an expression polarity is pushed down to the comparisons, labels disappear,
and the connectives become conjunctions and disjunctions.  What remains at the leaves is a
comparison with a sign, or a statement (a declaration, an all-different) that has no place inside a
formula.  No program computes it: it is the shape in which the compiler's cases can be counted.

`Nnf.Holds` is the meaning of a normal form.  A statement inside a normal form has lost its sign,
so the meaning is kept for normal forms without statements, the only ones that compile.
-/

namespace WeightedCsp

/-- A formula in negation normal form. -/
inductive Nnf where
  /-- A comparison, or its negation if `positive` is false. -/
  | compare (terms : List NamedTerm) (op : Comparator) (rhs : Int) (positive : Bool)
  /-- A statement that is no formula. -/
  | statement (e : Expr)
  /-- Conjunction. -/
  | all (parts : List Nnf)
  /-- Disjunction. -/
  | any (parts : List Nnf)

namespace Expr

mutual

/-- The normal form of the expression, or of its negation if `positive` is false. -/
def nnf (positive : Bool) : Expr → Nnf
  | .int name values => .statement (.int name values)
  | .linear terms op rhs => .compare terms op rhs positive
  | .not e => e.nnf (!positive)
  | .and es => if positive then .all (nnfs positive es) else .any (nnfs positive es)
  | .or es => if positive then .any (nnfs positive es) else .all (nnfs positive es)
  | .imp a b =>
    if positive then .any [a.nnf false, b.nnf true] else .all [a.nnf true, b.nnf false]
  | .allDifferent names => .statement (.allDifferent names)
  | .labeled _ e => e.nnf positive

/-- The normal forms of several expressions. -/
def nnfs (positive : Bool) : List Expr → List Nnf
  | [] => []
  | e :: es => e.nnf positive :: nnfs positive es

end

end Expr

/-! ### Expressions in lists -/

/-- All expressions hold if each of them does. -/
theorem Expr.allHold_iff {value : String → Int} {es : List Expr} :
    Expr.AllHold value es ↔ ∀ e ∈ es, e.Holds value := by
  induction es with
  | nil => simp [Expr.AllHold]
  | cons e es ih => simp [Expr.AllHold, ih]

/-- Two lists hold one after the other if each of them does. -/
theorem Expr.allHold_append {value : String → Int} {es fs : List Expr} :
    Expr.AllHold value (es ++ fs) ↔ Expr.AllHold value es ∧ Expr.AllHold value fs := by
  simp only [Expr.allHold_iff, List.forall_mem_append]

/-- Some expression holds if one of them does. -/
theorem Expr.someHolds_iff {value : String → Int} {es : List Expr} :
    Expr.SomeHolds value es ↔ ∃ e ∈ es, e.Holds value := by
  induction es with
  | nil => simp [Expr.SomeHolds]
  | cons e es ih => simp [Expr.SomeHolds, ih]

/-- A label means nothing. -/
@[simp]
theorem Expr.holds_unlabeled {value : String → Int} (e : Expr) :
    e.unlabeled.Holds value ↔ e.Holds value := by
  fun_induction Expr.unlabeled e with
  | case1 label e ih => rw [ih, Expr.Holds]
  | case2 e => rfl

/-! ### Meaning of normal forms -/

namespace Nnf

mutual

/-- The normal form is true of the values. -/
def Holds (value : String → Int) : Nnf → Prop
  | .compare terms op rhs positive => op.Holds (Expr.total value terms) rhs ↔ positive = true
  | .statement e => e.Holds value
  | .all parts => AllHold value parts
  | .any parts => SomeHolds value parts

/-- All the normal forms are true of the values. -/
def AllHold (value : String → Int) : List Nnf → Prop
  | [] => True
  | f :: fs => Holds value f ∧ AllHold value fs

/-- One of the normal forms is true of the values. -/
def SomeHolds (value : String → Int) : List Nnf → Prop
  | [] => False
  | f :: fs => Holds value f ∨ SomeHolds value fs

end

mutual

/-- No statement stands in the normal form. -/
def Pure : Nnf → Prop
  | .compare .. => True
  | .statement _ => False
  | .all parts => AllPure parts
  | .any parts => AllPure parts

/-- No statement stands in one of the normal forms. -/
def AllPure : List Nnf → Prop
  | [] => True
  | f :: fs => f.Pure ∧ AllPure fs

end

end Nnf

namespace Expr

variable {value : String → Int}

mutual

/-- **Polarity.** The normal form for a sign is true exactly when the expression has that truth. -/
theorem holds_nnf : ∀ (e : Expr) (positive : Bool), (e.nnf positive).Pure →
    ((e.nnf positive).Holds value ↔ (e.Holds value ↔ positive = true))
  | .int name values, positive, hpure => by simp [nnf, Nnf.Pure] at hpure
  | .allDifferent names, positive, hpure => by simp [nnf, Nnf.Pure] at hpure
  | .linear terms op rhs, positive, _ => by simp [nnf, Nnf.Holds, Holds]
  | .not e, positive, hpure => by
    rw [nnf] at hpure ⊢
    rw [holds_nnf e (!positive) hpure, Holds]
    cases positive <;> simp
  | .and es, positive, hpure => by
    cases positive with
    | true =>
      obtain ⟨hall, -⟩ := holds_nnfs es true hpure
      simpa [nnf, Nnf.Holds, Holds, allHold_iff] using hall
    | false =>
      obtain ⟨-, hsome⟩ := holds_nnfs es false hpure
      simpa [nnf, Nnf.Holds, Holds, allHold_iff] using hsome
  | .or es, positive, hpure => by
    cases positive with
    | true =>
      obtain ⟨-, hsome⟩ := holds_nnfs es true hpure
      simpa [nnf, Nnf.Holds, Holds, someHolds_iff] using hsome
    | false =>
      obtain ⟨hall, -⟩ := holds_nnfs es false hpure
      simpa [nnf, Nnf.Holds, Holds, someHolds_iff] using hall
  -- An implication has a part of either sign, so no induction hypothesis serves both signs at once.
  | .imp a b, positive, hpure => by
    cases positive with
    | true =>
      obtain ⟨ha, hb, -⟩ := hpure
      simp only [nnf, ↓reduceIte, Nnf.Holds, Nnf.SomeHolds, or_false, holds_nnf a false ha,
        holds_nnf b true hb, Holds]
      simp only [Bool.false_eq_true, iff_false, iff_true]
      exact imp_iff_not_or.symm
    | false =>
      obtain ⟨ha, hb, -⟩ := hpure
      simp only [nnf, Bool.false_eq_true, ↓reduceIte, Nnf.Holds, Nnf.AllHold, and_true,
        holds_nnf a true ha, holds_nnf b false hb, Holds]
      simp
  | .labeled _ e, positive, hpure => by
    rw [nnf] at hpure ⊢
    rw [holds_nnf e positive hpure, Holds]

/-- **Lists of normal forms.** They mean what the expressions mean, each with the sign. -/
theorem holds_nnfs : ∀ (es : List Expr) (positive : Bool), Nnf.AllPure (nnfs positive es) →
    (Nnf.AllHold value (nnfs positive es) ↔ ∀ e ∈ es, (e.Holds value ↔ positive = true)) ∧
      (Nnf.SomeHolds value (nnfs positive es) ↔ ∃ e ∈ es, (e.Holds value ↔ positive = true))
  | [], _, _ => by simp [nnfs, Nnf.AllHold, Nnf.SomeHolds]
  | e :: es, positive, ⟨he, hes⟩ => by
    obtain ⟨hall, hsome⟩ := holds_nnfs es positive hes
    simp [nnfs, Nnf.AllHold, Nnf.SomeHolds, holds_nnf e positive he, hall, hsome]

end

end Expr

end WeightedCsp

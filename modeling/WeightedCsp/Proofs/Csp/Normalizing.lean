import WeightedCsp.Csp.Compile
import WeightedCsp.Proofs.Csp.Nnf
import WeightedCsp.Proofs.Step

/-!
# Compiling normal forms

The compiler goes through an expression under a polarity: it looks through labels, turns the
polarity at negations, and treats a connective by what it is under the polarity.  So it does with an
expression what can be done with its normal form.  The functions on normal forms have half the cases
and no polarity, and everything else that is proven of the compiler is proven of them; here they are
defined, and shown to be what the compiler computes (`Compiler.parts_nnf`, `Compiler.formula_nnf`,
`Compiler.compile_nnf`).
-/

namespace WeightedCsp

namespace Nnf

open Compiler

mutual

/-- Atoms whose disjunction implies the normal form. -/
def disjuncts : Nnf → Compiler (List Atom)
  | .compare terms op rhs positive => do return [← comparison terms op rhs positive]
  | .statement e => do return [← nested e]
  | .all parts => do
    let atoms ← allConjuncts parts
    return [← nameAll atoms]
  | .any parts => allDisjuncts parts

/-- Atoms whose disjunction implies one of the normal forms. -/
def allDisjuncts : List Nnf → Compiler (List Atom)
  | [] => return []
  | f :: fs => do
    let atoms ← disjuncts f
    return atoms ++ (← allDisjuncts fs)

/-- Atoms whose conjunction implies the normal form. -/
def conjuncts : Nnf → Compiler (List Atom)
  | .compare terms op rhs positive => do return [← comparison terms op rhs positive]
  | .statement e => do return [← nested e]
  | .all parts => allConjuncts parts
  | .any parts => do
    let atoms ← allDisjuncts parts
    return [← nameAny atoms]

/-- Atoms whose conjunction implies all the normal forms. -/
def allConjuncts : List Nnf → Compiler (List Atom)
  | [] => return []
  | f :: fs => do
    let atoms ← conjuncts f
    return atoms ++ (← allConjuncts fs)

end

mutual

/-- Demands a normal form at the top. -/
def formula : Nnf → Compiler Unit
  | .compare terms op rhs positive => demand terms op rhs positive
  | .statement e => misplaced e
  | .all parts => formulas parts
  | .any parts => do
    let atoms ← allDisjuncts parts
    clause atoms

/-- Demands several normal forms at the top. -/
def formulas : List Nnf → Compiler Unit
  | [] => return ()
  | f :: fs => do
    formula f
    formulas fs

end

end Nnf

namespace Compiler

/-! ### Parts -/

mutual

/-- **Collecting.** The atoms of an expression are those of its normal form, for both collectors.  A
connective of the other kind goes through `litOf`, which gives it a name. -/
theorem parts_nnf : ∀ (e : Expr) (positive : Bool),
    disjuncts positive e = (e.nnf positive).disjuncts ∧
      conjuncts positive e = (e.nnf positive).conjuncts
  | .labeled _ e, positive => by
    simpa only [disjuncts, conjuncts, Expr.nnf] using parts_nnf e positive
  | .not e, positive => by
    simpa only [disjuncts, conjuncts, Expr.nnf] using parts_nnf e (!positive)
  | .linear terms op rhs, positive => by
    simp only [disjuncts, conjuncts, litOf, Expr.nnf, Nnf.disjuncts, Nnf.conjuncts, and_self]
  | .int name values, positive => by
    simp only [disjuncts, conjuncts, litOf, Expr.nnf, Nnf.disjuncts, Nnf.conjuncts, and_self]
  | .allDifferent names, positive => by
    simp only [disjuncts, conjuncts, litOf, Expr.nnf, Nnf.disjuncts, Nnf.conjuncts, and_self]
  | .and es, true => by
    simp only [disjuncts, conjuncts, litOf, Expr.nnf, if_pos, Nnf.disjuncts, Nnf.conjuncts,
      (allParts_nnf es true).2, bind_assoc, and_self]
  | .and es, false => by
    simp only [disjuncts, conjuncts, litOf, Expr.nnf, Nnf.disjuncts, Nnf.conjuncts,
      (allParts_nnf es false).1, bind_assoc, Bool.false_eq_true, if_false, and_self]
  | .or es, true => by
    simp only [disjuncts, conjuncts, litOf, Expr.nnf, if_pos, Nnf.disjuncts, Nnf.conjuncts,
      (allParts_nnf es true).1, bind_assoc, and_self]
  | .or es, false => by
    simp only [disjuncts, conjuncts, litOf, Expr.nnf, Nnf.disjuncts, Nnf.conjuncts,
      (allParts_nnf es false).2, bind_assoc, Bool.false_eq_true, if_false, and_self]
  | .imp a b, true => by
    simp [disjuncts, conjuncts, litOf, Expr.nnf, Nnf.disjuncts, Nnf.conjuncts, Nnf.allDisjuncts,
      (parts_nnf a false).1, (parts_nnf b true).1]
  | .imp a b, false => by
    simp [disjuncts, conjuncts, litOf, Expr.nnf, Nnf.disjuncts, Nnf.conjuncts, Nnf.allConjuncts,
      (parts_nnf a true).2, (parts_nnf b false).2]

/-- The parts of a list are those of its normal forms. -/
theorem allParts_nnf : ∀ (es : List Expr) (positive : Bool),
    allDisjuncts positive es = Nnf.allDisjuncts (Expr.nnfs positive es) ∧
      allConjuncts positive es = Nnf.allConjuncts (Expr.nnfs positive es)
  | [], _ => by
    simp only [allDisjuncts, allConjuncts, Expr.nnfs, Nnf.allDisjuncts, Nnf.allConjuncts, and_self]
  | e :: es, positive => by
    simp only [allDisjuncts, allConjuncts, Expr.nnfs, Nnf.allDisjuncts, Nnf.allConjuncts,
      parts_nnf e positive, allParts_nnf es positive, and_self]

end

/-! ### The top -/

mutual

/-- **Demanding.** At the top an expression is demanded as its normal form is. -/
theorem formula_nnf : ∀ (e : Expr) (positive : Bool),
    formula positive e = (e.nnf positive).formula
  | .labeled _ e, positive => by simpa only [formula, Expr.nnf] using formula_nnf e positive
  | .not e, positive => by simpa only [formula, Expr.nnf] using formula_nnf e (!positive)
  | .linear .., _ | .int .., _ | .allDifferent _, _ => by
    simp only [formula, Expr.nnf, Nnf.formula]
  | .and es, true | .or es, false => by
    simp [formula, Expr.nnf, Nnf.formula, formulas_nnf es]
  | .and es, false | .or es, true => by
    simp [formula, Expr.nnf, Nnf.formula, disjuncts, allParts_nnf es]
  | .imp a b, true => by
    simp [formula, Expr.nnf, Nnf.formula, Nnf.allDisjuncts, disjuncts, parts_nnf a, parts_nnf b]
  | .imp a b, false => by
    simp [formula, Expr.nnf, Nnf.formula, Nnf.formulas, formula_nnf a true, formula_nnf b false]

/-- A list demands what its normal forms demand. -/
theorem formulas_nnf : ∀ (es : List Expr) (positive : Bool),
    formulas positive es = Nnf.formulas (Expr.nnfs positive es)
  | [], _ => by simp only [formulas, Expr.nnfs, Nnf.formulas]
  | e :: es, positive => by
    simp only [formulas, Expr.nnfs, Nnf.formulas, formula_nnf e positive, formulas_nnf es positive]

end

/-- **Compiling.** An expression without the labels in front is a declaration, an all-different, or
demanded as a formula. -/
theorem compile_nnf (e : Expr) :
    compile e = match e.unlabeled with
      | .int name values => declare name values
      | .allDifferent names => allDifferent names
      | f => (f.nnf true).formula := by
  fun_induction Expr.unlabeled e with
  | case1 label e ih => rw [compile, ih]
  | case2 e hlabel =>
    cases e with
    | labeled label e => exact absurd rfl (hlabel label e)
    | int | allDifferent => simp only [compile]
    | linear | not | and | or | imp => simp only [compile, formula_nnf]

end Compiler

end WeightedCsp

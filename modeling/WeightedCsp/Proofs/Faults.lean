import WeightedCsp.Csp.Session
import WeightedCsp.Method.Tiers
import WeightedCsp.Proofs.Csp.Normalizing
import WeightedCsp.Proofs.Encoding.Failures
import WeightedCsp.Proofs.Instance.Entering

/-!
# Faults are overflows

A fault ends a computation for good, so a strategy that is to be relied upon may not run into one
without need.  Everything from the compiler up to the reports of a strategy is tame: the only faults
are overflows.  In particular no order encoding is ever asked for over no value, because a
declaration without values is refused before (`Compiler.tame_declare`), and no table is read outside
its bounds.

Of the errors of a session one is an encoding that fails.  Whatever is compiled, such an encoding
has met an overflow (`CompileError.Mild`).
-/

namespace WeightedCsp

/-! ### The compiler -/

namespace Expr

/-- Whether values are contiguous is found out by adding one to each. -/
theorem tame_contiguous : ∀ values : List Int, (contiguous values).Tame
  | a :: b :: rest => by
    refine (Word.tame_add a 1).bind fun c => ?_
    split_ifs
    · exact tame_contiguous (b :: rest)
    · exact Checked.tame_ok _
  | [] | [_] => Checked.tame_ok _

theorem tame_intText (name : String) (values : List Int) : (intText name values).Tame := by
  refine (tame_contiguous values).bind fun _ => ?_
  split
  · split_ifs <;> exact Checked.tame_ok _
  · exact Checked.tame_ok _

mutual

/-- The text of a declaration compares its values, which may overflow. -/
theorem tame_text : ∀ e : Expr, e.text.Tame
  | .int name values => tame_intText name values
  | .linear .. | .allDifferent _ => Checked.tame_ok _
  | .not e | .labeled _ e => (tame_text e).map
  | .and es | .or es => (tame_texts es).map
  | .imp a b => (tame_text a).bind fun _ => (tame_text b).map

theorem tame_texts : ∀ es : List Expr, (texts es).Tame
  | [] => Checked.tame_ok _
  | e :: es => (tame_text e).bind fun _ => (tame_texts es).map

end

end Expr

/-- If an encoding has failed, it has met an overflow. -/
def CompileError.Mild : CompileError → Prop
  | .encoding cause => cause = .overflow
  | _ => True

namespace Compiler

open Step

/-- The failures of the step, from any tables, are overflows, reported or not, and errors that have
nothing to do with encodings. -/
abbrev Tame {α : Type} (x : Compiler α) : Prop := Step.Tame CompileError.Mild x

/-- Errors of an encoder are errors of the compiler, and of these there is only the overflow. -/
theorem tame_emit {α : Type} {x : Encoder EncodingError α} (hx : Step.Tame (· = .overflow) x) :
    (emit x).Tame := by
  intro ⟨cnf, vars, atoms, undo⟩ e s' h
  cases hx' : x cnf with
  | ok a cnf' =>
    simp only [emit, hx'] at h
    cases h
  | error e cnf' =>
    simp only [emit, hx'] at h
    cases e with
    | fault _ =>
      cases h
      exact hx cnf _ cnf' hx'
    | error e =>
      cases h
      exact hx cnf _ cnf' hx'

theorem tame_lookup (name : String) : (lookup name).Tame := by
  intro s e s' h
  unfold lookup at h
  split at h <;> cases h
  trivial

theorem tame_addVariable (name : String) (x : OrderVar) : (addVariable name x).Tame := by
  rintro s t s' ⟨⟩

theorem tame_addAtom (name : String) (value : Int) (a : Atom) : (addAtom name value a).Tame := by
  rintro s t s' ⟨⟩

theorem tame_clause (atoms : List Atom) : (clause atoms).Tame := tame_emit (Atom.tame_addClause _)

theorem tame_clauses : ∀ cs : List (List Atom), (clauses cs).Tame
  | [] => tame_pure _
  | c :: cs => (tame_clause c).bind fun _ => tame_clauses cs

/-- A declaration without values is refused before it is encoded. -/
theorem tame_declare (name : String) (values : List Int) : (declare name values).Tame := by
  unfold declare
  dsimp only
  split_ifs with hempty
  · -- What follows is not reached, so the encoder never sees an empty list.
    exact tame_fail (e := CompileError.emptyDomain name) trivial
  · refine tame_get.bind fun t => ?_
    split
    · split_ifs
      · exact tame_fail trivial
      · exact tame_pure _
    · have hencode := tame_emit (OrderVar.tame_encode (Bool.eq_false_iff.2 hempty))
      exact hencode.bind fun _ => tame_addVariable name _

theorem tame_equality (name : String) (value : Int) : (equality name value).Tame := by
  refine tame_get.bind fun t => ?_
  split
  · exact tame_pure _
  · exact (tame_lookup name).bind fun x => (tame_emit (x.tame_eqAtom value)).bind fun _ =>
      (tame_addAtom _ _ _).bind fun _ => tame_pure _

theorem tame_equalities (name : String) : ∀ values : List Int, (equalities name values).Tame
  | [] => tame_pure _
  | v :: vs => (tame_equality name v).bind fun _ => (tame_equalities name vs).bind fun _ =>
      tame_pure _

theorem tame_allEqualities : ∀ names : List String, (allEqualities names).Tame
  | [] => tame_pure _
  | name :: names => (tame_lookup name).bind fun _ => (tame_equalities name _).bind fun _ =>
      (tame_allEqualities names).bind fun _ => tame_pure _

theorem tame_allDifferent (names : List String) : (allDifferent names).Tame :=
  (tame_allEqualities names).bind fun _ => tame_clauses _

theorem tame_mergeTerm (c : Int) (name : String) : ∀ terms, (mergeTerm c name terms).Tame
  | [] => Checked.tame_ok _
  | (d, x) :: rest => by
    unfold mergeTerm
    split_ifs
    · exact (Word.tame_add d c).map
    · exact (tame_mergeTerm c name rest).map

theorem tame_mergeAll : ∀ terms merged : List NamedTerm, (mergeAll merged terms).Tame
  | [], _ => Checked.tame_ok _
  | (c, x) :: rest, _ => (tame_mergeTerm c x _).bind fun _ => tame_mergeAll rest _

theorem tame_mergeTerms (terms : List NamedTerm) : (mergeTerms terms).Tame :=
  (tame_mergeAll terms []).map

theorem tame_asAtMost (c : Int) (op : Comparator) (rhs : Int) : (asAtMost c op rhs).Tame := by
  cases op with
  | eq | le => exact Checked.tame_ok _
  | lt => exact (Word.tame_sub rhs 1).map
  | ge => exact (Word.tame_neg c).bind fun _ => (Word.tame_neg rhs).map
  | gt => exact (Word.tame_neg c).bind fun _ => (Word.tame_neg rhs).bind fun _ =>
      (Word.tame_sub _ 1).map

theorem tame_boundAtom (x : OrderVar) (c rhs : Int) : (boundAtom x c rhs).Tame := by
  unfold boundAtom
  split_ifs
  · exact (Word.tame_divFloor rhs c).map
  · exact (Word.tame_divCeil rhs c).bind fun _ => x.tame_ge _

theorem tame_termAtom (c : Int) (name : String) (op : Comparator) (rhs : Int) :
    (termAtom c name op rhs).Tame := by
  unfold termAtom
  split_ifs
  · refine (tame_checked (Word.tame_rem rhs c)).bind fun r => ?_
    split_ifs
    · exact (tame_checked (Word.tame_div rhs c)).bind fun _ => tame_equality name _
    · exact tame_pure _
  · exact (tame_checked (tame_asAtMost c op rhs)).bind fun _ => (tame_lookup name).bind fun _ =>
      tame_checked (tame_boundAtom _ _ _)

theorem tame_weightedSum : ∀ (terms : List NamedTerm) (offset : Int),
    (weightedSum offset terms).Tame
  | [], _ => tame_pure _
  | (c, name) :: rest, _ => by
    refine (tame_lookup name).bind fun x => ?_
    refine (tame_checked (OrderVar.tame_steps _ _)).bind fun steps => ?_
    refine (tame_checked ((Word.tame_mul c _).bind fun _ => Word.tame_add _ _)).bind fun _ => ?_
    refine (tame_checked (Checked.tame_mapM (fun _ => (Word.tame_mul c _).map) steps)).bind
      fun _ => ?_
    exact (tame_weightedSum rest _).bind fun _ => tame_pure _

theorem tame_sum (terms : List NamedTerm) (op : Comparator) (rhs : Int) :
    (sum terms op rhs).Tame := by
  have hle : ∀ lits bound, (emit (PseudoBoolean.encodeAtMost lits bound)).Tame :=
    fun lits bound => tame_emit (PseudoBoolean.tame_encodeAtMost lits bound)
  have hge : ∀ lits bound, (emit (PseudoBoolean.encodeAtLeast lits bound)).Tame :=
    fun lits bound => tame_emit (PseudoBoolean.tame_encodeAtLeast lits bound)
  refine (tame_weightedSum terms 0).bind fun _ => (tame_checked (Word.tame_sub rhs _)).bind
    fun _ => ?_
  cases op with
  | le => exact hle _ _
  | lt => exact (tame_checked (Word.tame_sub _ 1)).bind fun _ => hle _ _
  | ge => exact hge _ _
  | gt => exact (tame_checked (Word.tame_add _ 1)).bind fun _ => hge _ _
  | eq => exact (hle _ _).bind fun _ => hge _ _

/-- The error carries the text of the expression, and writing that may overflow. -/
theorem tame_misplaced (e : Expr) : (misplaced e).Tame :=
  (tame_checked e.tame_text).bind fun _ => tame_fail trivial

theorem tame_nested (e : Expr) : (nested e).Tame :=
  (tame_checked e.tame_text).bind fun _ => tame_fail trivial

theorem tame_demand (terms : List NamedTerm) (op : Comparator) (rhs : Int) (positive : Bool) :
    (demand terms op rhs positive).Tame := by
  refine (tame_checked (tame_mergeTerms terms)).bind fun merged => ?_
  split
  · exact tame_clause _
  · exact (tame_termAtom _ _ _ _).bind fun _ => tame_clause _
  · split_ifs
    · exact tame_sum _ _ _
    · split
      · exact tame_sum _ _ _
      · exact tame_misplaced _

theorem tame_comparison (terms : List NamedTerm) (op : Comparator) (rhs : Int) (positive : Bool) :
    (comparison terms op rhs positive).Tame := by
  refine (tame_checked (tame_mergeTerms terms)).bind fun merged => ?_
  split
  · exact tame_pure _
  · exact (tame_termAtom _ _ _ _).bind fun _ => tame_pure _
  · exact tame_nested _

theorem tame_nameAll (atoms : List Atom) : (nameAll atoms).Tame := by
  unfold nameAll
  split_ifs
  · exact tame_pure _
  · split
    · exact tame_pure _
    · exact tame_pure _
    · exact (tame_emit Encoder.tame_newLit).bind fun _ => (tame_clauses _).bind fun _ =>
        tame_pure _

theorem tame_nameAny (atoms : List Atom) : (nameAny atoms).Tame := by
  unfold nameAny
  split_ifs
  · exact tame_pure _
  · split
    · exact tame_pure _
    · exact tame_pure _
    · exact (tame_emit Encoder.tame_newLit).bind fun _ => (tame_clause _).bind fun _ =>
        tame_pure _

mutual

theorem tame_disjuncts : ∀ f : Nnf, f.disjuncts.Tame
  | .compare .. => (tame_comparison _ _ _ _).bind fun _ => tame_pure _
  | .statement _ => (tame_nested _).bind fun _ => tame_pure _
  | .all parts => (tame_allConjuncts parts).bind fun _ => (tame_nameAll _).bind fun _ =>
      tame_pure _
  | .any parts => tame_allDisjuncts parts

theorem tame_allDisjuncts : ∀ fs : List Nnf, (Nnf.allDisjuncts fs).Tame
  | [] => tame_pure _
  | f :: fs => (tame_disjuncts f).bind fun _ => (tame_allDisjuncts fs).bind fun _ => tame_pure _

theorem tame_conjuncts : ∀ f : Nnf, f.conjuncts.Tame
  | .compare .. => (tame_comparison _ _ _ _).bind fun _ => tame_pure _
  | .statement _ => (tame_nested _).bind fun _ => tame_pure _
  | .all parts => tame_allConjuncts parts
  | .any parts => (tame_allDisjuncts parts).bind fun _ => (tame_nameAny _).bind fun _ =>
      tame_pure _

theorem tame_allConjuncts : ∀ fs : List Nnf, (Nnf.allConjuncts fs).Tame
  | [] => tame_pure _
  | f :: fs => (tame_conjuncts f).bind fun _ => (tame_allConjuncts fs).bind fun _ => tame_pure _

end

mutual

theorem tame_formula : ∀ f : Nnf, f.formula.Tame
  | .compare .. => tame_demand _ _ _ _
  | .statement _ => tame_misplaced _
  | .all parts => tame_formulas parts
  | .any parts => (tame_allDisjuncts parts).bind fun _ => tame_clause _

theorem tame_formulas : ∀ fs : List Nnf, (Nnf.formulas fs).Tame
  | [] => tame_pure _
  | f :: fs => (tame_formula f).bind fun _ => tame_formulas fs

end

/-- **Expressions.** Nothing but an overflow ends the compiler. -/
theorem tame_compile (e : Expr) : (compile e).Tame := by
  rw [compile_nnf]
  split
  · exact tame_declare _ _
  · exact tame_allDifferent _
  · exact tame_formula _

end Compiler

/-! ### Sessions -/

/-- If an encoding has failed, it has met an overflow. -/
def SessionError.Mild : SessionError → Prop
  | .compile _ cause => cause.Mild
  | _ => True

namespace Session

variable {σ : Type} (b : Backend σ)

open Step

/-- An error is reported with the text of its expression. -/
theorem tame_compileAll : ∀ es : List Expr, (compileAll es).Tame SessionError.Mild
  | [] => tame_pure _
  | e :: es => by
    intro s f s' h
    unfold compileAll at h
    split at h
    · exact tame_compileAll es _ f s' h
    · next heq =>
      cases h
      exact Compiler.tame_compile e _ _ _ heq
    · next heq =>
      -- An error is reported with the text of its expression, and writing that may overflow too.
      split at h
      · cases h
        exact Compiler.tame_compile e _ _ _ heq
      · next htext =>
        cases h
        exact e.tame_text _ htext

/-- **Batches.** Nothing but an overflow ends a batch. -/
theorem tame_commit : (commit b).Tame SessionError.Mild := by
  intro s e s' h
  unfold commit at h
  split_ifs at h
  split at h
  · next heq =>
    cases h
    exact tame_compileAll _ _ _ _ heq
  · -- A clause that is refused is an error of the backend, no fault.
    dsimp only at h
    split at h
    · cases h
    · cases h
      trivial

theorem tame_assumptionAtoms (x : OrderVar) (op : Comparator) (value : Int) :
    (assumptionAtoms x op value).Tame := by
  cases op with
  | le => exact Checked.tame_ok _
  | lt => exact (Word.tame_sub value 1).map
  | ge | eq => exact (x.tame_ge value).map
  | gt => exact (Word.tame_add value 1).bind fun _ => (x.tame_ge _).map

theorem tame_assume (name : String) (op : Comparator) (value : Int) :
    (assume b name op value).Tame SessionError.Mild := by
  refine (tame_commit b).bind fun _ => tame_get.bind fun s => ?_
  split
  · exact tame_fail trivial
  · exact (tame_checked (tame_assumptionAtoms _ op value)).bind fun _ => tame_modify _

/-- **Questions.** Nothing but an overflow, of a number or of the clock, ends a question. -/
theorem tame_solve (limit : Option Nat) : (solve b limit).Tame SessionError.Mild := by
  refine (tame_commit b).bind fun _ s e s' h => ?_
  dsimp only at h
  split_ifs at h
  · cases h
    exact trivial
  · split at h
    · cases h
    · cases h
    · cases h
    · cases h
      trivial

end Session

/-! ### Formulations -/

namespace Formulation

theorem tame_boundOf : ∀ (parts : List Summand) (acc : Int), (boundOf acc parts).Tame
  | [], _ => Checked.tame_ok _
  | s :: rest, _ => (Word.tame_mul s.factor s.bound).bind fun _ => (Word.tame_add _ _).bind fun _ =>
      tame_boundOf rest _

theorem tame_opposites : ∀ parts : List Summand, (opposites parts).Tame
  | [] => Checked.tame_ok _
  | s :: rest => (Word.tame_neg s.factor).bind fun _ => (tame_opposites rest).map

theorem tame_sumDefinition (name : String) (parts : List Summand) :
    (sumDefinition name parts).Tame :=
  (tame_boundOf parts 0).bind fun _ => (tame_opposites parts).map

/-- The bound of an aggregate is computed, and the signs of its factors are changed. -/
theorem tame_aggregate (f : Formulation) (name : String) (cs : List Constraint) :
    Failure.Tame (fun _ => True) (f.aggregate name cs) :=
  (Failure.tame_ofExcept fun _ _ => trivial).bind fun _ _ =>
    (Failure.tame_checked (Word.tame_sum _)).bind fun _ _ =>
      (Failure.tame_checked (tame_sumDefinition name _)).bind fun _ _ => Failure.fails_ok _

theorem tame_tierSums (ps : List Penalty) : ∀ prices : List Nat, (tierSums ps prices).Tame
  | [] => Checked.tame_ok _
  | _ :: rest => (Word.tame_sum _).bind fun _ => (tame_sumDefinition _ _).bind fun _ =>
      (tame_tierSums ps rest).map

/-- The objective is the sum of the tiers, each with its price. -/
theorem tame_objective (f : Formulation) : Failure.Tame (fun _ => True) f.objective := by
  unfold objective
  split_ifs
  · exact (Failure.tame_checked (tame_tierSums _ _)).bind fun _ _ =>
      (Failure.tame_checked (tame_sumDefinition _ _)).bind fun _ _ => Failure.fails_ok _
  · exact Failure.tame_error trivial

end Formulation

/-! ### Instances and warm starts -/

namespace Instance.Scribe

open Step

theorem tame_weaken (op : Comparator) (rhs : Int) : (weaken op rhs).Tame := by
  cases op with
  | eq | le | ge => exact Checked.tame_ok _
  | lt => exact (Word.tame_sub rhs 1).map
  | gt => exact (Word.tame_add rhs 1).map

theorem tame_spread (t : LinearTerm) : (spread t).Tame :=
  Checked.tame_mapM (fun _ => (Word.tame_mul _ _).map) _

theorem tame_conOf (c : Constraint) : (conOf c).Tame := by
  refine Checked.Tame.map ?_
  unfold demandOf
  split
  · exact (tame_weaken _ _).bind fun _ => (Checked.tame_mapM tame_spread _).map
  · exact (tame_weaken _ _).map
  · exact (Word.tame_sub _ _).bind fun _ => (Word.tame_sub _ _).map
  · exact Checked.tame_ok _

theorem tame_writeVariable (x : Variable) : (writeVariable x).Tame fun _ => True := by
  intro s t s' h
  unfold writeVariable at h
  split at h
  · split_ifs at h
    cases h
    trivial
  · cases h

theorem tame_writeVariables : ∀ xs : List Variable, (writeVariables xs).Tame fun _ => True
  | [] => tame_pure _
  | x :: xs => (tame_writeVariable x).bind fun _ => tame_writeVariables xs

theorem tame_writeConstraint (c : Constraint) : (writeConstraint c).Tame fun _ => True := by
  refine tame_get.bind fun s => ?_
  split
  · split_ifs
    · exact tame_checked (tame_conOf c)
    · exact tame_fail trivial
  · exact (tame_writeVariables _).bind fun _ => (tame_checked (tame_conOf c)).bind fun _ =>
      (tame_modify _).bind fun _ => tame_pure _

theorem tame_addVar (x : Var) : (addVar x).Tame fun _ => True := by
  intro i t j h
  rw [addVar_apply] at h
  split_ifs at h
  cases h
  trivial

theorem tame_addCon (k : Con) : (addCon k).Tame fun _ => True := by
  intro i t j h
  rw [addCon_apply] at h
  split_ifs at h
  · cases h
    trivial
  · split at h
    · cases h
      trivial
    · cases h

/-- What is entered into an instance fails as the entering does. -/
theorem tame_entering {x : Entering Unit} (hx : x.Tame fun _ => True) (i : Instance) :
    Failure.Tame (fun _ => True) (entering x i) := by
  intro t h
  unfold entering Step.build Step.mapError at h
  cases hrun : x i with
  | ok a i' =>
    simp only [hrun] at h
    cases h
  | error e i' =>
    simp only [hrun] at h
    cases h
    exact (hx i e i' hrun).map

/-- **Instances.** Nothing but an overflow ends the writing of a model. -/
theorem tame_writeModel (m : Model) : (writeModel m).Tame fun _ => True := by
  have hvars : ∀ (xs : List Variable) (i : Instance), (enterVariables i xs).Tame fun _ => True := by
    intro xs
    induction xs with
    | nil => exact fun i => tame_pure i
    | cons x xs ih =>
      exact fun i => (tame_writeVariable x).bind fun v =>
        (tame_except (tame_entering (tame_addVar v) i)).bind ih
  have hcons : ∀ (cs : List Constraint) (i : Instance),
      (enterConstraints i cs).Tame fun _ => True := by
    intro cs
    induction cs with
    | nil => exact fun i => tame_pure i
    | cons c cs ih =>
      exact fun i => (tame_writeConstraint c).bind fun k =>
        (tame_except (tame_entering (tame_addCon k) i)).bind ih
  exact (hvars m.vars .empty).bind fun i => hcons m.constraints i

end Instance.Scribe

/-- Only the look-up of constraints could read a table of places that is wrong. -/
theorem WarmStart.tame_ofLog {m : Model} (hm : ∀ name, (m.lookupConstraint name).Tame)
    (log : SolverLog) : Failure.Tame (fun _ => True) (ofLog m log) := by
  have hamounts : ∀ (price : Nat) (violated : NameMap Int), (amountsOf m price violated).Tame := by
    intro price violated
    induction violated with
    | nil => exact Checked.tame_ok _
    | cons v rest ih => exact (hm v.1).bind fun _ => ih.map
  unfold ofLog
  split_ifs
  · exact Failure.fails_ok _
  · split
    · exact Failure.fails_ok _
    · exact (Failure.tame_checked ((hamounts _ _).bind fun _ => Word.tame_sum _)).bind fun _ _ =>
        (Failure.tame_ofExcept fun _ _ => trivial).bind fun _ _ => Failure.fails_ok _

theorem Optimizer.tame_warmStartRequest {σ : Type} (o : Optimizer σ) :
    Failure.Tame (fun _ => True) o.warmStartRequest := by
  have hinstance : Failure.Tame (fun _ => True) (instanceOf o.model) := by
    unfold instanceOf
    split
    · exact Failure.fails_ok _
    · next e s heq =>
      rintro e' ⟨⟩
      exact (Instance.Scribe.tame_writeModel _ _ e s heq).map
  refine hinstance.bind fun i _ => ?_
  dsimp only
  split
  · exact Failure.fails_ok _
  · exact Failure.tame_error trivial

/-! ### Reports -/

namespace Report

theorem tame_addToTier (price : Nat) (amount : Int) :
    ∀ totals, (addToTier price amount totals).Tame
  | [] => (Word.tame_add _ _).map
  | _ :: rest => by
    unfold addToTier
    split_ifs
    · exact (Word.tame_add _ _).map
    · exact (Word.tame_add _ _).map
    · exact (tame_addToTier price amount rest).map

theorem tame_tierTotals : ∀ (vs : List Violation) (totals : List (Nat × Int)),
    (tierTotals totals vs).Tame
  | [], _ => Checked.tame_ok _
  | v :: rest, _ => by
    unfold tierTotals
    split
    · exact tame_tierTotals rest _
    · exact (tame_addToTier _ _ _).bind fun _ => tame_tierTotals rest _

/-- A report without an objective is no fault; one with totals that overflow is. -/
theorem tame_new (method : String) (m : Model) (status : Phase) (best : Option Solution)
    (solves elapsed : Nat) : (new method m status best solves elapsed).Tame := by
  unfold new
  dsimp only
  split
  · exact Checked.tame_ok _
  · split
    · exact Checked.tame_ok _
    · exact (tame_tierTotals _ _).map

end Report

theorem Optimizer.tame_report {σ : Type} (b : Backend σ) (name : String) (o : Optimizer σ) :
    (o.report b name).Tame := Report.tame_new _ _ _ _ _ _

end WeightedCsp

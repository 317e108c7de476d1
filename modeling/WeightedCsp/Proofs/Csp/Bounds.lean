import WeightedCsp.Proofs.Csp.Acceptance

/-!
# Bounds on a name

Improving a value adds one bound after the other: each solution caps the value, and the last bound
either caps it once more or fixes it (`Expr.capped`).  Bounds declare nothing, so a solution that
satisfies them is a solution of what was said together with them.
-/

namespace WeightedCsp

/-- A comparison that puts an upper bound on its left side and admits the bound itself. -/
def Comparator.Caps (op : Comparator) : Prop :=
  ∀ a b : Int, (a = b → op.Holds a b) ∧ (op.Holds a b → a ≤ b)

theorem Comparator.caps_le : Comparator.le.Caps := fun _ _ => ⟨Int.le_of_eq, id⟩

theorem Comparator.caps_eq : Comparator.eq.Caps := fun _ _ => ⟨id, Int.le_of_eq⟩

namespace Expr

variable {value : String → Int} {values : String → List Int} {names : List String} {name : String}
  {op : Comparator} {ks : List Int} {v : Int}

/-- Upper bounds on a name, and a last comparison. -/
def capped (name : String) (op : Comparator) (ks : List Int) (v : Int) : List Expr :=
  ks.map (cmp name .le) ++ [cmp name op v]

/-- Upper bounds are comparisons with the variable. -/
theorem mem_capped {e : Expr} (h : e ∈ capped name op ks v) : ∃ op' k, e = cmp name op' k := by
  rcases List.mem_append.1 h with he | he
  · obtain ⟨k, -, rfl⟩ := List.mem_map.1 he
    exact ⟨.le, k, rfl⟩
  · exact ⟨op, v, List.mem_singleton.1 he⟩

theorem declares?_capped : ∀ e ∈ capped name op ks v, e.declares? = none := by
  intro e he
  obtain ⟨op', k, rfl⟩ := mem_capped he
  rfl

theorem fits_cmp (hname : name ∈ names) (op : Comparator) (k : Int) :
    (cmp name op k).Fits values names := by
  show ∀ t ∈ [((1 : Int), name)], t.2 ∈ names
  simpa using hname

/-- Upper bounds on a declared variable are accepted. -/
theorem accepts_capped (hname : name ∈ names) : Accepts values names (capped name op ks v) := by
  refine accepts_of_forall fun e he => ?_
  obtain ⟨op', k, rfl⟩ := mem_capped he
  exact fits_cmp hname op' k

/-- Under a chain of upper bounds a variable is at most the last of them. -/
theorem le_of_capped (hop : op.Caps) (h : AllHold value (capped name op ks v)) : value name ≤ v :=
  (hop _ _).2 (holds_cmp.1 (allHold_append.1 h).2.1)

/-- A value that is at most every bound satisfies them all. -/
theorem allHold_capped (hop : op.Caps) (hks : ∀ k ∈ ks, v ≤ k) (hv : value name = v) :
    AllHold value (capped name op ks v) := by
  refine allHold_append.2 ⟨allHold_iff.2 fun e he => ?_, holds_cmp.2 ((hop _ _).1 hv), trivial⟩
  obtain ⟨k, hk, rfl⟩ := List.mem_map.1 he
  refine holds_cmp.2 ?_
  rw [hv]
  exact hks k hk

/-- Expressions that declare nothing can be left out of what is declared. -/
theorem declaredBy_append_of_none {es fs : List Expr} (hnone : ∀ e ∈ fs, e.declares? = none) :
    declaredBy (es ++ fs) = declaredBy es := by
  rw [declaredBy_append, declaredBy, declaredBy, List.filterMap_eq_nil_iff.2 hnone, List.append_nil]

end Expr

/-! ### Solutions -/

/-- A solution of more is a solution of less. -/
theorem Outcome.RightFor.of_append {es fs : List Expr} {assumed : List Assumption} {s : Solution}
    (h : Outcome.RightFor (es ++ fs) assumed (.sat s)) : Outcome.RightFor es [] (.sat s) := by
  refine ⟨fun e he => h.1 e (List.mem_append_left _ he), ?_, by simp⟩
  exact (Expr.allHold_append.1 h.2.1).1

/-- A solution of more, as long as nothing more is declared. -/
theorem Outcome.RightFor.append {es fs : List Expr} {assumed : List Assumption} {s : Solution}
    (h : Outcome.RightFor es assumed (.sat s)) (hnone : ∀ e ∈ fs, e.declares? = none)
    (hall : Expr.AllHold s.value fs) : Outcome.RightFor (es ++ fs) assumed (.sat s) := by
  refine ⟨List.forall_mem_append.2 ⟨h.1, fun e he name own hun => ?_⟩,
    Expr.allHold_append.2 ⟨h.2.1, hall⟩, h.2.2⟩
  have hdeclares := hnone e he
  rw [Expr.declares?, hun] at hdeclares
  cases hdeclares

namespace Session

/-- A bound on a declared variable may be added at any time. -/
theorem Stands.bound {σ : Type} {clauses : σ → List Clause} {values : String → List Int}
    {names : List String} {exprs : List Expr} {assumed : List Assumption} {s : Session σ}
    (h : Stands clauses values names exprs assumed s) {name : String} (hname : name ∈ names)
    (op : Comparator) (k : Int) :
    Stands clauses values names (exprs ++ [Expr.cmp name op k]) assumed
      (s.addExprs [Expr.cmp name op k]) := by
  have hnames : names ++ Expr.declaredBy [Expr.cmp name op k] = names := List.append_nil names
  rw [← hnames]
  exact h.addExprs ⟨Expr.fits_cmp hname op k, trivial⟩

end Session

end WeightedCsp

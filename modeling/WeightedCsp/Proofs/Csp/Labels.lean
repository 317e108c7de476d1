import Mathlib
import WeightedCsp.Proofs.Csp.Rollback

/-!
# Labels do not count

A label is a note for the reader of an expression.  `Expr.bare` takes the labels away at every
depth.  Five functions of the compiler go through an expression, and each of them looks through a
label, under whatever polarity it has come to it; so each does the same with an expression and with
its bare form (`Compiler.litOf_bare`, `disjuncts_bare`, `conjuncts_bare`, `formula_bare` and
`compile_bare`).

So a session cannot tell the two apart.  A batch and its bare form lead to the same tables, or fail
with the same cause at the same place (`failsAt_congr`), and the sessions after them are equal
(`commit_bare`).  Only the text of the expression that is reported differs.  `Session.SameBare`
relates sessions that wait for the same expressions up to labels; each operation keeps it
(`SameBare.perform`), and so does every sequence of operations (`SameBare.performAll`).
-/

namespace WeightedCsp

/-- Two computations succeed, or both stop at the same fault. -/
inductive Checked.Alike {α β : Type} : Checked α → Checked β → Prop
  | ok (a : α) (b : β) : Alike (.ok a) (.ok b)
  | fault (f : Fault) : Alike (.error f) (.error f)

namespace Checked.Alike

variable {α β γ δ : Type} {x : Checked α} {y : Checked β}

theorem refl (x : Checked α) : Alike x x := by
  cases x with
  | ok a => exact .ok a a
  | error f => exact .fault f

theorem symm (h : Alike x y) : Alike y x := by
  cases h with
  | ok a b => exact .ok b a
  | fault f => exact .fault f

/-- Computations that end like the same one end alike. -/
theorem trans {z : Checked γ} (hxy : Alike x y) (hyz : Alike y z) : Alike x z := by
  cases hxy with
  | ok a b =>
    cases hyz with
    | ok b c => exact .ok a c
  | fault f =>
    cases hyz with
    | fault f => exact .fault f

/-- Computations that end alike can be followed by others that do. -/
theorem bind {g : α → Checked γ} {h : β → Checked δ} (hxy : Alike x y)
    (hgh : ∀ a b, Alike (g a) (h b)) : Alike (x >>= g) (y >>= h) := by
  cases hxy with
  | ok a b => exact hgh a b
  | fault f => exact .fault f

theorem map {g : α → γ} {h : β → δ} (hxy : Alike x y) :
    Alike (do return g (← x)) (do return h (← y)) :=
  hxy.bind fun a b => .ok (g a) (h b)

theorem map_right {h : β → δ} (hxy : Alike x y) : Alike x (do return h (← y)) := by
  cases hxy with
  | ok a b => exact .ok a (h b)
  | fault f => exact .fault f

end Checked.Alike

/-! ### Expressions -/

namespace Expr

mutual

/-- The expression without its labels, at any depth. -/
def bare : Expr → Expr
  | .int name values => .int name values
  | .linear terms op rhs => .linear terms op rhs
  | .not e => .not e.bare
  | .and es => .and (bares es)
  | .or es => .or (bares es)
  | .imp a b => .imp a.bare b.bare
  | .allDifferent names => .allDifferent names
  | .labeled _ e => e.bare

/-- The expressions without their labels. -/
def bares : List Expr → List Expr
  | [] => []
  | e :: es => e.bare :: bares es

end

mutual

/-- Without labels, there is no label to be taken off. -/
theorem bare_bare : ∀ e : Expr, e.bare.bare = e.bare
  | .int _ _ | .linear _ _ _ | .allDifferent _ => rfl
  | .not e => congrArg Expr.not (bare_bare e)
  | .and es => congrArg Expr.and (bares_bares es)
  | .or es => congrArg Expr.or (bares_bares es)
  | .imp a b => congrArg₂ Expr.imp (bare_bare a) (bare_bare b)
  | .labeled _ e => bare_bare e

theorem bares_bares : ∀ es : List Expr, bares (bares es) = bares es
  | [] => rfl
  | e :: es => congrArg₂ List.cons (bare_bare e) (bares_bares es)

end

theorem map_bare_bare (es : List Expr) : (es.map bare).map bare = es.map bare := by
  rw [List.map_map]
  exact List.map_congr_left fun e _ => bare_bare e

mutual

/-- Writing stops at the same fault with and without labels. -/
theorem text_bare : ∀ e : Expr, Checked.Alike e.bare.text e.text
  | .int _ _ | .linear _ _ _ | .allDifferent _ => .refl _
  | .not e => (text_bare e).map
  | .and es | .or es => (texts_bares es).map
  | .imp a b => (text_bare a).bind fun _ _ => (text_bare b).map
  | .labeled _ e => (text_bare e).map_right

/-- Without labels, a list of expressions can be written down where it can be with them. -/
theorem texts_bares : ∀ es : List Expr, Checked.Alike (texts (bares es)) (texts es)
  | [] => .refl _
  | e :: es => (text_bare e).bind fun _ _ => (texts_bares es).map

end

end Expr

/-! ### The compiler -/

namespace Compiler

-- A connective is collected by the function of its kind and named by the others, so each lemma
-- comes to the parts of the connective by one of the four collecting lemmas.
mutual

/-- **Naming.** The atom for an expression is that for its bare form. -/
theorem litOf_bare : ∀ (e : Expr) (positive : Bool), litOf positive e.bare = litOf positive e
  | .labeled _ e, positive => by rw [Expr.bare, litOf, litOf_bare e positive]
  | .not e, positive => by rw [Expr.bare, litOf, litOf, litOf_bare e]
  | .int _ _, _ | .linear _ _ _, _ | .allDifferent _, _ => by rw [Expr.bare]
  | .and es, true | .or es, false => by
    simp only [Expr.bare, litOf, conjuncts, allConjuncts_bares es]
  | .and es, false | .or es, true => by
    simp only [Expr.bare, litOf, disjuncts, allDisjuncts_bares es]
  | .imp a b, true => by simp only [Expr.bare, litOf, disjuncts, disjuncts_bare a, disjuncts_bare b]
  | .imp a b, false => by
    simp only [Expr.bare, litOf, conjuncts, conjuncts_bare a, conjuncts_bare b]

/-- **Disjunctions** collect the same atoms from an expression and from its bare form. -/
theorem disjuncts_bare : ∀ (e : Expr) (positive : Bool),
    disjuncts positive e.bare = disjuncts positive e
  | .labeled _ e, positive => by rw [Expr.bare, disjuncts, disjuncts_bare e positive]
  | .not e, positive => by rw [Expr.bare, disjuncts, disjuncts, disjuncts_bare e]
  | .int _ _, _ | .linear _ _ _, _ | .allDifferent _, _ => by rw [Expr.bare]
  | .and es, true | .or es, false => by
    simp only [Expr.bare, disjuncts, litOf, conjuncts, allConjuncts_bares es]
  | .and es, false | .or es, true => by simp only [Expr.bare, disjuncts, allDisjuncts_bares es]
  | .imp a b, true => by simp only [Expr.bare, disjuncts, disjuncts_bare a, disjuncts_bare b]
  | .imp a b, false => by
    simp only [Expr.bare, disjuncts, litOf, conjuncts, conjuncts_bare a, conjuncts_bare b]

/-- The disjuncts of a list do not hang on labels. -/
theorem allDisjuncts_bares : ∀ (es : List Expr) (positive : Bool),
    allDisjuncts positive (Expr.bares es) = allDisjuncts positive es
  | [], _ => by rw [Expr.bares]
  | e :: es, positive => by
    rw [Expr.bares, allDisjuncts, allDisjuncts, disjuncts_bare e, allDisjuncts_bares es]

/-- **Conjunctions** collect the same atoms from an expression and from its bare form. -/
theorem conjuncts_bare : ∀ (e : Expr) (positive : Bool),
    conjuncts positive e.bare = conjuncts positive e
  | .labeled _ e, positive => by rw [Expr.bare, conjuncts, conjuncts_bare e positive]
  | .not e, positive => by rw [Expr.bare, conjuncts, conjuncts, conjuncts_bare e]
  | .int _ _, _ | .linear _ _ _, _ | .allDifferent _, _ => by rw [Expr.bare]
  | .and es, true | .or es, false => by simp only [Expr.bare, conjuncts, allConjuncts_bares es]
  | .and es, false | .or es, true => by
    simp only [Expr.bare, conjuncts, litOf, disjuncts, allDisjuncts_bares es]
  | .imp a b, true => by
    simp only [Expr.bare, conjuncts, litOf, disjuncts, disjuncts_bare a, disjuncts_bare b]
  | .imp a b, false => by simp only [Expr.bare, conjuncts, conjuncts_bare a, conjuncts_bare b]

/-- The conjuncts of a list do not hang on labels. -/
theorem allConjuncts_bares : ∀ (es : List Expr) (positive : Bool),
    allConjuncts positive (Expr.bares es) = allConjuncts positive es
  | [], _ => by rw [Expr.bares]
  | e :: es, positive => by
    rw [Expr.bares, allConjuncts, allConjuncts, conjuncts_bare e, allConjuncts_bares es]

end

mutual

/-- **Demanding.** At the top an expression is demanded as its bare form is. -/
theorem formula_bare : ∀ (e : Expr) (positive : Bool), formula positive e.bare = formula positive e
  | .labeled _ e, positive => by rw [Expr.bare, formula, formula_bare e positive]
  | .not e, positive => by rw [Expr.bare, formula, formula, formula_bare e]
  | .int _ _, _ | .linear _ _ _, _ | .allDifferent _, _ => by rw [Expr.bare]
  | .and es, true | .or es, false => by simp only [Expr.bare, formula, formulas_bares es]
  | .and es, false | .or es, true => by
    simp only [Expr.bare, formula, disjuncts, allDisjuncts_bares es]
  | .imp a b, true => by
    simp only [Expr.bare, formula, disjuncts, disjuncts_bare a, disjuncts_bare b]
  | .imp a b, false => by simp only [Expr.bare, formula, formula_bare a, formula_bare b]

/-- What a list demands does not hang on labels. -/
theorem formulas_bares : ∀ (es : List Expr) (positive : Bool),
    formulas positive (Expr.bares es) = formulas positive es
  | [], _ => by rw [Expr.bares]
  | e :: es, positive => by
    rw [Expr.bares, formulas, formulas, formula_bare e, formulas_bares es]

end

/-- **Compiling.** An expression is compiled like its bare form, also where the label stands around
a statement. -/
theorem compile_bare : ∀ e : Expr, compile e.bare = compile e
  | .labeled _ e => by rw [Expr.bare, compile, compile_bare e]
  | .int _ _ | .linear _ _ _ | .allDifferent _ => by rw [Expr.bare]
  | .not e => formula_bare (.not e) true
  | .and es => formula_bare (.and es) true
  | .or es => formula_bare (.or es) true
  | .imp a b => formula_bare (.imp a b) true

end Compiler

/-! ### Results -/

/-- The errors are the same, up to the text of the expression that does not compile. -/
inductive SessionError.Alike : SessionError → SessionError → Prop
  /-- The same error. -/
  | same (e : SessionError) : Alike e e
  /-- Two expressions do not compile for the same cause. -/
  | compile (text text' : String) (cause : CompileError) :
    Alike (.compile text cause) (.compile text' cause)

/-- Two runs end in the same state, with the same value, at the same fault or with errors of the
same kind. -/
inductive EndsAlike {σ α : Type} :
    EStateM.Result (Failure SessionError) σ α → EStateM.Result (Failure SessionError) σ α → Prop
  | ok (a : α) (s : σ) : EndsAlike (.ok a s) (.ok a s)
  | fault (f : Fault) (s : σ) : EndsAlike (.error (.fault f) s) (.error (.fault f) s)
  | error {e e' : SessionError} (h : e.Alike e') (s : σ) :
    EndsAlike (.error (.error e) s) (.error (.error e') s)

namespace EndsAlike

variable {σ α β : Type} {r r' : EStateM.Result (Failure SessionError) σ α}

theorem refl (r : EStateM.Result (Failure SessionError) σ α) : EndsAlike r r := by
  cases r with
  | ok a s => exact .ok a s
  | error e s =>
    cases e with
    | fault f => exact .fault f s
    | error e => exact .error (.same e) s

/-- Of two runs that end alike, one gives a result exactly where the other gives the same. -/
theorem ok_iff (h : EndsAlike r r') (a : α) (s : σ) : r = .ok a s ↔ r' = .ok a s := by
  cases h with
  | ok => rfl
  | fault | error => exact iff_of_false nofun nofun

/-- What follows does not tell apart two runs that end alike. -/
theorem bind {x : Step SessionError σ α} {f : α → Step SessionError σ β} {s s' : σ}
    (h : EndsAlike (x s) (x s')) : EndsAlike ((x >>= f) s) ((x >>= f) s') := by
  show EndsAlike (EStateM.bind x f s) (EStateM.bind x f s')
  unfold EStateM.bind
  generalize x s = r, x s' = r' at h
  cases h with
  | ok a t => exact refl (f a t)
  | fault g t => exact .fault g t
  | error h t => exact .error h t

end EndsAlike

namespace Session

variable {σ : Type} {b : Backend σ} {s s' : Session σ} {es fs : List Expr}

/-! ### Batches -/

/-- An error is reported alike for expressions that differ in labels only. -/
theorem reported_alike {e f : Expr} (h : e.bare = f.bare) (cause : Failure CompileError)
    (t : Tables) : EndsAlike (.error (reported e cause) t : EStateM.Result _ _ Unit)
      (.error (reported f cause) t) := by
  cases cause with
  | fault g => exact .fault g t
  | error cause =>
    have htext : Checked.Alike e.text f.text := by
      have hbare := f.text_bare
      rw [← h] at hbare
      exact e.text_bare.symm.trans hbare
    unfold reported
    generalize e.text = text, f.text = text' at htext
    cases htext with
    | ok text text' => exact .error (.compile text text' cause) t
    | fault g => exact .fault g t

/-- **Batches.** Batches that are the same up to labels end alike. -/
theorem compileAll_alike (h : es.map Expr.bare = fs.map Expr.bare) (t : Tables) :
    EndsAlike (compileAll es t) (compileAll fs t) := by
  induction es generalizing fs t with
  | nil =>
    obtain rfl := List.map_eq_nil_iff.1 h.symm
    exact .refl _
  | cons e es ih =>
    obtain ⟨f, fs, rfl, hf, hfs⟩ := List.map_eq_cons_iff.1 h.symm
    have hcompile : Compiler.compile f t = Compiler.compile e t := by
      rw [← Compiler.compile_bare f, hf, Compiler.compile_bare e]
    rw [compileAll_cons, compileAll_cons, hcompile]
    cases Compiler.compile e t with
    | ok x u => exact ih hfs.symm u
    | error cause u => exact reported_alike hf.symm cause _

/-- The batch fails with the cause at the expression at the place; those before it compile. -/
def FailsAt (es : List Expr) (t : Tables) (place : Nat) (cause : Failure CompileError)
    (u : Tables) : Prop :=
  ∃ e t₁, es[place]? = some e ∧ compileAll (es.take place) t = .ok () t₁ ∧
    Compiler.compile e t₁ = .error cause u

/-- **Failing batches.** A batch that fails does so at one of its expressions, where those before it
compile. -/
theorem exists_failsAt {t u : Tables} {r : Failure SessionError}
    (h : compileAll es t = .error r u) :
    ∃ place cause e w, es[place]? = some e ∧ FailsAt es t place cause w ∧
      r = reported e cause := by
  induction es generalizing t with
  | nil => cases h
  | cons e es ih =>
    rw [compileAll_cons] at h
    cases hrun : Compiler.compile e t with
    | ok x t₁ =>
      rw [hrun] at h
      obtain ⟨place, cause, f, w, hf, ⟨g, t₂, hg, hbefore, hfails⟩, hr⟩ := ih h
      refine ⟨place + 1, cause, f, w, hf, ⟨g, t₂, hg, ?_, hfails⟩, hr⟩
      rw [List.take_succ_cons, compileAll_cons, hrun]
      exact hbefore
    | error cause w =>
      rw [hrun] at h
      cases h
      exact ⟨0, cause, e, w, rfl, ⟨e, t, rfl, rfl, hrun⟩, rfl⟩

/-- Where a list fails does not hang on labels. -/
theorem failsAt_congr (h : es.map Expr.bare = fs.map Expr.bare) {t u : Tables} {place : Nat}
    {cause : Failure CompileError} (hes : FailsAt es t place cause u) :
    FailsAt fs t place cause u := by
  obtain ⟨e, t₁, he, hbefore, hfails⟩ := hes
  have hplace : (es.map Expr.bare)[place]? = (fs.map Expr.bare)[place]? := by rw [h]
  rw [List.getElem?_map, List.getElem?_map, he] at hplace
  obtain ⟨f, hf, hbare⟩ := Option.map_eq_some_iff.1 hplace.symm
  have htake : (es.take place).map Expr.bare = (fs.take place).map Expr.bare := by
    rw [List.map_take, List.map_take, h]
  refine ⟨f, t₁, hf, ((compileAll_alike htake t).ok_iff _ _).1 hbefore, ?_⟩
  rw [← Compiler.compile_bare f, hbare, Compiler.compile_bare e]
  exact hfails

/-! ### Operations -/

/-- The sessions are the same, up to labels in the expressions that wait. -/
def SameBare (s s' : Session σ) : Prop :=
  s.pending.map Expr.bare = s'.pending.map Expr.bare ∧ s' = { s with pending := s'.pending }

theorem SameBare.refl (s : Session σ) : SameBare s s := ⟨rfl, rfl⟩

/-- Queues that differ in labels only stay so. -/
theorem SameBare.addExprs (h : SameBare s s') (hes : es.map Expr.bare = fs.map Expr.bare) :
    SameBare (s.addExprs es) (s'.addExprs fs) := by
  obtain ⟨hpending, hrest⟩ := h
  refine ⟨?_, ?_⟩
  · show (s.pending ++ es).map Expr.bare = (s'.pending ++ fs).map Expr.bare
    rw [List.map_append, List.map_append, hpending, hes]
  · rw [hrest]
    rfl

/-- **Commits.** Sessions that are the same up to labels are equal after a commit. -/
theorem SameBare.commit (h : SameBare s s') (b : Backend σ) :
    EndsAlike (commit b s) (commit b s') := by
  obtain ⟨hpending, hrest⟩ := h
  have hlength : s.pending.length = s'.pending.length := by
    have := congrArg List.length hpending
    rwa [List.length_map, List.length_map] at this
  have hempty : s.pending = [] ↔ s'.pending = [] := by
    rw [← List.length_eq_zero_iff, hlength, List.length_eq_zero_iff]
  rw [hrest]
  unfold Session.commit
  simp only [List.isEmpty_iff, hempty]
  split_ifs with hnone
  · -- With nothing that waits the sessions are equal.
    have hsame : ({ s with pending := s'.pending } : Session σ) = s := by
      rw [hnone, ← hempty.2 hnone]
    rw [hsame]
    exact .ok () s
  · -- The rest of a commit reads the tables, and of the batch only its length.
    have hruns := compileAll_alike hpending s.tables
    have htables : ({ s with pending := s'.pending } : Session σ).tables = s.tables := rfl
    rw [htables]
    generalize compileAll s.pending s.tables = r, compileAll s'.pending s.tables = r' at hruns
    cases hruns with
    | ok x t =>
      simp only [hlength]
      exact .refl _
    | fault f t => exact .fault f _
    | error he t => exact .error he _

/-- An assumption does not tell apart two sessions that differ in labels only. -/
theorem SameBare.assume (h : SameBare s s') (b : Backend σ) (name : String) (op : Comparator)
    (bound : Int) : EndsAlike (assume b name op bound s) (assume b name op bound s') :=
  (h.commit b).bind

/-- A question does not tell apart two sessions that differ in labels only. -/
theorem SameBare.solve (h : SameBare s s') (b : Backend σ) (limit : Option Nat) :
    EndsAlike (solve b limit s) (solve b limit s') :=
  (h.commit b).bind

end Session

/-- The operation with bare expressions. -/
def Operation.bare : Operation → Operation
  | .addExprs es => .addExprs (es.map Expr.bare)
  | op => op

/-- The responses are the same, up to the text of an expression that does not compile. -/
inductive Response.Alike : Response → Response → Prop
  | same (r : Response) : Alike r r
  | failed {e e' : SessionError} (h : e.Alike e') : Alike (.failed e) (.failed e')

/-- Responses that are alike stop a run alike. -/
theorem Response.Alike.isStopped_eq {r r' : Response} (h : r.Alike r') :
    r.isStopped = r'.isStopped := by
  cases h <;> rfl

namespace Session

variable {σ : Type} {b : Backend σ} {s s' : Session σ}

/-- Runs that end alike are answered alike, and leave sessions that differ in labels only. -/
theorem respond_alike {α : Type} (f : α → Response) {x : Step SessionError (Session σ) α}
    (h : EndsAlike (x s) (x s')) :
    (respond f x s).1.Alike (respond f x s').1 ∧
      SameBare (respond f x s).2 (respond f x s').2 := by
  unfold respond
  generalize x s = r, x s' = r' at h
  cases h with
  | ok a t => exact ⟨.same _, .refl t⟩
  | fault g t => exact ⟨.same _, .refl t⟩
  | error he t => exact ⟨.failed he, .refl t⟩

/-- **Operations.** The responses to an operation and to its bare form are of the same kind, and the
sessions stay the same up to labels. -/
theorem SameBare.perform (h : SameBare s s') (b : Backend σ) (op : Operation) :
    (perform b op s).1.Alike (perform b op.bare s').1 ∧
      SameBare (perform b op s).2 (perform b op.bare s').2 := by
  cases op with
  | addExprs es => exact ⟨.same _, h.addExprs (Expr.map_bare_bare es).symm⟩
  | commit => exact respond_alike _ (h.commit b)
  | assume name op bound => exact respond_alike _ (h.assume b name op bound)
  | solve limit => exact respond_alike _ (h.solve b limit)
  | isDeclared name =>
    have hsame : isDeclared s' name = isDeclared s name := by
      rw [h.2]
      rfl
    show Response.Alike (.declared (isDeclared s name)) (.declared (isDeclared s' name)) ∧ _
    rw [hsame]
    exact ⟨.same _, h⟩
  | exprCount =>
    have hsame : s'.exprCount = s.exprCount := by rw [h.2]
    show Response.Alike (.counted s.exprCount) (.counted s'.exprCount) ∧ _
    rw [hsame]
    exact ⟨.same _, h⟩

/-- **Sequences of operations.** The responses are of the same kind one by one. -/
theorem SameBare.performAll (h : SameBare s s') (b : Backend σ) (ops : List Operation) :
    List.Forall₂ Response.Alike (performAll b ops s).1
        (performAll b (ops.map Operation.bare) s').1 ∧
      SameBare (performAll b ops s).2 (performAll b (ops.map Operation.bare) s').2 := by
  induction ops generalizing s s' with
  | nil => exact ⟨.nil, h⟩
  | cons op ops ih =>
    obtain ⟨hfirst, hnext⟩ := h.perform b op
    obtain ⟨hrest, hlast⟩ := ih hnext
    -- Responses of the same kind stop both runs, or none.
    rw [List.map_cons, performAll_cons, performAll_cons, hfirst.isStopped_eq]
    split_ifs
    · exact ⟨.cons hfirst .nil, hnext⟩
    · exact ⟨.cons hfirst hrest, hlast⟩

/-- **Labels do not count.** A session queues expressions, and an equal one their bare forms.  Then
the two batches compile to the same clauses with the same variables, or fail with the same cause at
the same place, and the sessions are equal after the commit, also if a clause is refused.  More
generally, the responses to a sequence of operations and to its bare form are of the same kind, and
the sessions after them are the same up to labels in expressions that still wait. -/
theorem commit_bare (b : Backend σ) (s : Session σ) (es : List Expr) :
    let labeled := s.addExprs es
    let bare := s.addExprs (es.map Expr.bare)
    (∀ t, compileAll labeled.pending labeled.tables = .ok () t ↔
        compileAll bare.pending bare.tables = .ok () t) ∧
      EndsAlike (commit b labeled) (commit b bare) ∧
      (∀ r t, commit b labeled = .error r t → (∃ message, r = .error (.refused message)) ∨
        ∃ place cause e u, labeled.pending[place]? = some e ∧ r = reported e cause ∧
          FailsAt labeled.pending labeled.tables place cause u ∧
          FailsAt bare.pending bare.tables place cause u) ∧
      ∀ ops, List.Forall₂ Response.Alike (performAll b ops s).1
            (performAll b (ops.map Operation.bare) s).1 ∧
          SameBare (performAll b ops s).2 (performAll b (ops.map Operation.bare) s).2 := by
  intro labeled bare
  have hsame : SameBare labeled bare :=
    (SameBare.refl s).addExprs (Expr.map_bare_bare es).symm
  refine ⟨fun t => (compileAll_alike hsame.1 s.tables).ok_iff () t, hsame.commit b, ?_,
    (SameBare.refl s).performAll b⟩
  have hplace : ∀ {r u}, compileAll labeled.pending labeled.tables = .error r u →
      ∃ place cause e w, labeled.pending[place]? = some e ∧ r = reported e cause ∧
        FailsAt labeled.pending labeled.tables place cause w ∧
        FailsAt bare.pending bare.tables place cause w := by
    intro r u hcompile
    obtain ⟨place, cause, e, w, he, hfails, hr⟩ := exists_failsAt hcompile
    exact ⟨place, cause, e, w, he, hr, hfails, failsAt_congr hsame.1 hfails⟩
  intro r t h
  cases r with
  | fault f =>
    obtain ⟨u, hcompile, -⟩ := commit_eq_fault h
    exact .inr (hplace hcompile)
  | error e =>
    rcases commit_eq_error h with ⟨-, -, u, -, hcompile, -⟩ | ⟨message, -, -, rfl, -⟩
    · exact .inr (hplace hcompile)
    · exact .inl ⟨message, rfl⟩

/-- A label between a negation and a statement is looked through like any other. -/
example : (Expr.or [.labeled "a" (.not (.labeled "b" (.int "x" [0, 1])))]).bare =
    .or [.not (.int "x" [0, 1])] := rfl

end Session

end WeightedCsp

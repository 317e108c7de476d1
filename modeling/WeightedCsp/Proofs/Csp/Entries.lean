import WeightedCsp.Proofs.Csp.Formula

/-!
# What the compiler enters into the tables

The tables are only added to: declared names come before the old ones, and so do atoms of
equalities.  Whether an expression compiles or fails halfway, the names it has entered are those
that it declares, every entry is made under a key that had none, and the log has got the keys of
exactly these entries (`Compiler.entering_compile`).  So a log that was empty before a batch leads
back from whatever the batch has made of the tables (`Tables.Enters.rollback`).
-/

namespace WeightedCsp

/-! ### Declared names -/

namespace Expr

/-- The variable that an expression declares. -/
def declares? (e : Expr) : Option String :=
  match e.unlabeled with
  | .int name _ => some name
  | _ => none

/-- The variables that expressions declare. -/
def declaredBy (es : List Expr) : List String := es.filterMap declares?

/-- The names that a list declares are those of its first expression and of the others. -/
theorem declaredBy_cons (e : Expr) (es : List Expr) :
    declaredBy (e :: es) = e.declares?.toList ++ declaredBy es := by
  rw [declaredBy, declaredBy, List.filterMap_cons]
  cases e.declares? <;> rfl

/-- The names that two lists declare come one after the other. -/
theorem declaredBy_append (es fs : List Expr) :
    declaredBy (es ++ fs) = declaredBy es ++ declaredBy fs := List.filterMap_append

/-- A name is declared by a list if one of its expressions declares it. -/
theorem mem_declaredBy {es : List Expr} {name : String} :
    name ∈ declaredBy es ↔ ∃ e ∈ es, e.declares? = some name := List.mem_filterMap

end Expr

/-! ### One table and its log -/

section Logged

variable {κ α : Type}

/-- Entries were put in front of the old ones, each under an allowed key that had none, and their
keys were put at the end of the log, the oldest first. -/
def Logged (allowed : κ → Prop) (old : List (κ × α)) (log : List κ) (new : List (κ × α))
    (log' : List κ) : Prop :=
  ∃ added, new = added ++ old ∧ log' = log ++ (added.map (·.1)).reverse ∧
    ∀ p ∈ added, allowed p.1 ∧ p.1 ∉ old.map (·.1)

variable {allowed allowed' : κ → Prop} {old new new' : List (κ × α)} {log log' log'' : List κ}

theorem Logged.refl (allowed : κ → Prop) (old : List (κ × α)) (log : List κ) :
    Logged allowed old log old log := ⟨[], by simp⟩

/-- Entries that were made one after the other are logged together. -/
theorem Logged.trans (h₁ : Logged allowed old log new log')
    (h₂ : Logged allowed new log' new' log'') : Logged allowed old log new' log'' := by
  obtain ⟨first, rfl, rfl, hfirst⟩ := h₁
  obtain ⟨second, rfl, rfl, hsecond⟩ := h₂
  refine ⟨second ++ first, by simp, by simp, List.forall_mem_append.2 ⟨fun p hp => ?_, hfirst⟩⟩
  obtain ⟨hallowed, hfresh⟩ := hsecond p hp
  rw [List.map_append, List.mem_append, not_or] at hfresh
  exact ⟨hallowed, hfresh.2⟩

/-- More keys can be allowed. -/
theorem Logged.mono (h : Logged allowed old log new log')
    (hsub : ∀ key, allowed key → allowed' key) : Logged allowed' old log new log' := by
  obtain ⟨added, hnew, hlog, hadded⟩ := h
  exact ⟨added, hnew, hlog, fun p hp => ⟨hsub _ (hadded p hp).1, (hadded p hp).2⟩⟩

/-- A key that is not found is no key of a table. -/
theorem notMem_of_lookup_eq_none [BEq κ] [LawfulBEq κ] {key : κ} {entries : List (κ × α)}
    (h : entries.lookup key = none) : key ∉ entries.map (·.1) := by
  intro hmem
  obtain ⟨p, hp, rfl⟩ := List.mem_map.1 hmem
  have hne := List.lookup_eq_none_iff.1 h p hp
  simp at hne

/-- One entry under a key that is not found. -/
theorem Logged.single [BEq κ] [LawfulBEq κ] {key : κ} (value : α) (hallowed : allowed key)
    (h : old.lookup key = none) :
    Logged allowed old log ((key, value) :: old) (log ++ [key]) := by
  refine ⟨[(key, value)], rfl, rfl, fun p hp => ?_⟩
  rw [List.mem_singleton.1 hp]
  exact ⟨hallowed, notMem_of_lookup_eq_none h⟩

variable [DecidableEq κ]

/-- Removing the logged keys one by one leaves the entries whose keys were not logged. -/
theorem foldl_removeKey (log : List κ) (entries : List (κ × α)) :
    log.foldl removeKey entries = entries.filter (·.1 ∉ log) := by
  induction log generalizing entries with
  | nil => simp
  | cons key log ih =>
    rw [List.foldl_cons, ih, removeKey, List.filter_filter]
    refine List.filter_congr fun p _ => ?_
    simp [Bool.and_comm]

/-- **Removing the keys of a log.** If the log was empty before, the old entries are left. -/
theorem Logged.foldl_removeKey_eq (h : Logged allowed old [] new log') :
    log'.foldl removeKey new = old := by
  obtain ⟨added, rfl, rfl, hadded⟩ := h
  rw [foldl_removeKey, List.filter_append, List.filter_eq_nil_iff.2, List.nil_append,
    List.filter_eq_self]
  · -- No old entry has a key of the log, as the keys were new.
    intro p hp
    have hnot : p.1 ∉ added.map (·.1) := by
      intro hmem
      obtain ⟨q, hq, heq⟩ := List.mem_map.1 hmem
      exact (hadded q hq).2 (heq ▸ List.mem_map_of_mem hp)
    simpa using hnot
  · intro p hp
    simpa using ⟨p.2, hp⟩

end Logged

/-! ### Both tables -/

namespace Tables

/-- Entries were added to both tables under keys that had none, and their keys to the log; all new
names are among the given ones. -/
structure Enters (names : List String) (t u : Tables) : Prop where
  vars : Logged (· ∈ names) t.vars t.undo.vars u.vars u.undo.vars
  atoms : Logged (fun _ => True) t.atoms t.undo.atoms u.atoms u.undo.atoms

variable {names names' : List String} {t u w : Tables}

theorem Enters.refl (names : List String) (t : Tables) : Enters names t t :=
  ⟨.refl _ _ _, .refl _ _ _⟩

/-- What two steps enter, they enter together. -/
theorem Enters.trans (h₁ : Enters names t u) (h₂ : Enters names u w) : Enters names t w :=
  ⟨h₁.vars.trans h₂.vars, h₁.atoms.trans h₂.atoms⟩

theorem Enters.mono (h : Enters names t u) (hsub : names ⊆ names') : Enters names' t u :=
  ⟨h.vars.mono fun _ hname => hsub hname, h.atoms⟩

/-- **Rolling back.** If the log was empty before the entries, the tables are the old ones again,
and so is the log.  Clauses and fresh variables stay. -/
theorem Enters.rollback (h : Enters names t u) (hlog : t.undo = {}) :
    u.rollback = { t with cnf := u.cnf } := by
  have hvars := h.vars
  have hatoms := h.atoms
  rw [hlog] at hvars hatoms
  simp only [Tables.rollback, hvars.foldl_removeKey_eq, hatoms.foldl_removeKey_eq, hlog]

end Tables

namespace Compiler

variable {α β : Type}

/-- Every run of the compiler enters no names but the given ones. -/
abbrev Entering (names : List String) (x : Compiler α) : Prop := x.Follows (Tables.Enters names)

section Rules

variable {names names' : List String}

/-- More names may be entered. -/
theorem Entering.mono {x : Compiler α} (h : Entering names x) (hsub : names ⊆ names') :
    Entering names' x := fun t => (h t).mono hsub

/-- Sequencing: what is entered is logged from the first step to the last. -/
theorem Entering.bind {x : Compiler α} {f : α → Compiler β} (hx : Entering names x)
    (hf : ∀ a, Entering names (f a)) : Entering names (x >>= f) :=
  Step.Follows.bind Tables.Enters.trans hx hf

/-- A step that changes nothing enters nothing. -/
theorem entering_of_after_eq {x : Compiler α} (h : ∀ t, x.after t = t) : Entering names x :=
  Step.follows_of_after_eq (Tables.Enters.refl names) h

theorem entering_pure (a : α) : Entering names (pure a : Compiler α) :=
  entering_of_after_eq (Step.after_pure a)

theorem entering_fail (e : CompileError) : Entering names (Step.fail e : Compiler α) :=
  entering_of_after_eq (Step.after_fail e)

theorem entering_checked (c : Checked α) : Entering names (liftM c : Compiler α) :=
  entering_of_after_eq (Step.after_checked c)

/-- An encoder changes the clauses and the next variable only. -/
theorem after_emit (x : Encoder EncodingError α) (t : Tables) :
    (emit x).after t = { t with cnf := x.after t.cnf } := by
  obtain ⟨cnf, vars, atoms, undo⟩ := t
  cases h : x cnf with
  | ok a cnf' => simp only [Step.after, emit, h]
  | error e cnf' => simp only [Step.after, emit, h]

/-- An encoder enters nothing in the tables. -/
theorem entering_emit (x : Encoder EncodingError α) : Entering names (emit x) := by
  intro t
  rw [after_emit]
  exact ⟨.refl _ _ _, .refl _ _ _⟩

/-- A look-up enters nothing. -/
theorem entering_lookup (name : String) : Entering names (lookup name) := by
  refine entering_of_after_eq fun t => ?_
  unfold Step.after lookup
  cases t.vars.lookup name <;> rfl

theorem entering_clauses : ∀ cs : List (List Atom), Entering names (clauses cs)
  | [] => entering_pure _
  | _ :: cs => (entering_emit _).bind fun _ => entering_clauses cs

end Rules

/-! ### Statements -/

/-- A declaration enters its own name, and only if there is no such name. -/
theorem entering_declare (name : String) (values : List Int) :
    Entering [name] (declare name values) := by
  unfold declare
  simp only
  split_ifs
  · exact entering_fail (.emptyDomain name)
  · intro t
    show Tables.Enters [name] t (Step.after _ t)
    unfold Step.after
    rw [Step.get_bind_apply]
    cases hlookup : t.vars.lookup name with
    -- A name that is there gets no second entry, with the same values or with others.
    | some x =>
      simp only
      split_ifs
      · exact .refl _ t
      · exact .refl _ t
    | none =>
      obtain ⟨cnf, vars, atoms, undo⟩ := t
      simp only [bind, EStateM.bind, emit]
      cases (OrderVar.encode (Ascending.ofList values) : Encoder EncodingError OrderVar) cnf with
      | error e cnf' => exact ⟨.refl _ _ _, .refl _ _ _⟩
      | ok x cnf' => exact ⟨.single x (List.mem_singleton.2 rfl) hlookup, .refl _ _ _⟩

/-- An equality enters its own atom, and only if there is none. -/
theorem entering_equality (name : String) (k : Int) : Entering [] (equality name k) := by
  intro t
  unfold Step.after equality
  rw [Step.get_bind_apply]
  cases hlookup : t.atoms.lookup (name, k) with
  | some a => exact .refl _ t
  | none =>
    obtain ⟨cnf, vars, atoms, undo⟩ := t
    simp only [bind, EStateM.bind, lookup, emit]
    cases vars.lookup name with
    | none => exact .refl _ _
    | some x =>
      simp only
      cases (x.eqAtom k : Encoder EncodingError Atom) cnf with
      | error e cnf' => exact ⟨.refl _ _ _, .refl _ _ _⟩
      | ok a cnf' => exact ⟨.refl _ _ _, .single a trivial hlookup⟩

/-- All equalities of a variable are logged. -/
theorem entering_equalities (name : String) : ∀ ks : List Int, Entering [] (equalities name ks)
  | [] => entering_pure _
  | k :: ks => (entering_equality name k).bind fun _ =>
      (entering_equalities name ks).bind fun _ => entering_pure _

/-- All equalities of several variables are logged. -/
theorem entering_allEqualities : ∀ names : List String, Entering [] (allEqualities names)
  | [] => entering_pure _
  | name :: names => (entering_lookup name).bind fun _ => (entering_equalities name _).bind fun _ =>
      (entering_allEqualities names).bind fun _ => entering_pure _

/-- The atoms that a demand of different values asks for are logged. -/
theorem entering_allDifferent (names : List String) : Entering [] (allDifferent names) :=
  (entering_allEqualities names).bind fun _ => entering_clauses _

/-! ### Comparisons -/

/-- A comparison with one variable declares nothing. -/
theorem entering_termAtom (c : Int) (name : String) (op : Comparator) (rhs : Int) :
    Entering [] (termAtom c name op rhs) := by
  unfold termAtom
  split_ifs
  · refine (entering_checked _).bind fun r => ?_
    split_ifs
    · exact (entering_checked _).bind fun q => entering_equality name q
    · exact entering_pure _
  · exact (entering_checked _).bind fun _ => (entering_lookup name).bind fun _ => entering_checked _

/-- The weighted literals of a sum are read off the tables. -/
theorem entering_weightedSum : ∀ (terms : List NamedTerm) (offset : Int),
    Entering [] (weightedSum offset terms)
  | [], _ => entering_pure _
  | (_, name) :: terms, _ => (entering_lookup name).bind fun _ => (entering_checked _).bind fun _ =>
      (entering_checked _).bind fun _ => (entering_checked _).bind fun _ =>
        (entering_weightedSum terms _).bind fun _ => entering_pure _

/-- A sum declares nothing. -/
theorem entering_sum (terms : List NamedTerm) (op : Comparator) (rhs : Int) :
    Entering [] (sum terms op rhs) := by
  refine (entering_weightedSum terms 0).bind fun _ => (entering_checked _).bind fun _ => ?_
  cases op with
  | le | ge => exact entering_emit _
  | lt | gt => exact (entering_checked _).bind fun _ => entering_emit _
  | eq => exact (entering_emit _).bind fun _ => entering_emit _

theorem entering_nested (e : Expr) : Entering [] (nested e) :=
  (entering_checked _).bind fun _ => entering_fail _

/-- A comparison inside a formula declares nothing. -/
theorem entering_comparison (terms : List NamedTerm) (op : Comparator) (rhs : Int)
    (positive : Bool) : Entering [] (comparison terms op rhs positive) := by
  refine (entering_checked _).bind fun merged => ?_
  split
  · exact entering_pure _
  · exact (entering_termAtom _ _ _ _).bind fun _ => entering_pure _
  · exact entering_nested _

/-- A demand declares nothing. -/
theorem entering_demand (terms : List NamedTerm) (op : Comparator) (rhs : Int) (positive : Bool) :
    Entering [] (demand terms op rhs positive) := by
  refine (entering_checked _).bind fun merged => ?_
  split
  · exact entering_emit _
  · exact (entering_termAtom _ _ _ _).bind fun _ => entering_emit _
  · split_ifs
    · exact entering_sum _ _ _
    · split
      · exact entering_sum _ _ _
      · exact (entering_checked _).bind fun _ => entering_fail _

/-! ### Formulas -/

/-- A conjunction declares nothing for its literal. -/
theorem entering_nameAll (atoms : List Atom) : Entering [] (nameAll atoms) := by
  unfold nameAll
  split_ifs
  · exact entering_pure _
  · split
    · exact entering_pure _
    · exact entering_pure _
    · exact (entering_emit _).bind fun _ => (entering_clauses _).bind fun _ => entering_pure _

theorem entering_nameAny (atoms : List Atom) : Entering [] (nameAny atoms) := by
  unfold nameAny
  split_ifs
  · exact entering_pure _
  · split
    · exact entering_pure _
    · exact entering_pure _
    · exact (entering_emit _).bind fun _ => (entering_emit _).bind fun _ => entering_pure _

mutual

/-- The disjuncts of a formula declare nothing. -/
theorem entering_disjuncts : ∀ f : Nnf, Entering [] f.disjuncts
  | .compare .. => (entering_comparison _ _ _ _).bind fun _ => entering_pure _
  | .statement _ => (entering_nested _).bind fun _ => entering_pure _
  | .all parts => (entering_allConjuncts parts).bind fun _ => (entering_nameAll _).bind fun _ =>
      entering_pure _
  | .any parts => entering_allDisjuncts parts

theorem entering_allDisjuncts : ∀ fs : List Nnf, Entering [] (Nnf.allDisjuncts fs)
  | [] => entering_pure _
  | f :: fs => (entering_disjuncts f).bind fun _ => (entering_allDisjuncts fs).bind fun _ =>
      entering_pure _

/-- The conjuncts of a formula declare nothing. -/
theorem entering_conjuncts : ∀ f : Nnf, Entering [] f.conjuncts
  | .compare .. => (entering_comparison _ _ _ _).bind fun _ => entering_pure _
  | .statement _ => (entering_nested _).bind fun _ => entering_pure _
  | .all parts => entering_allConjuncts parts
  | .any parts => (entering_allDisjuncts parts).bind fun _ => (entering_nameAny _).bind fun _ =>
      entering_pure _

theorem entering_allConjuncts : ∀ fs : List Nnf, Entering [] (Nnf.allConjuncts fs)
  | [] => entering_pure _
  | f :: fs => (entering_conjuncts f).bind fun _ => (entering_allConjuncts fs).bind fun _ =>
      entering_pure _

end

mutual

/-- A formula declares nothing. -/
theorem entering_formula : ∀ f : Nnf, Entering [] f.formula
  | .compare .. => entering_demand _ _ _ _
  | .statement _ => (entering_checked _).bind fun _ => entering_fail _
  | .all parts => entering_formulas parts
  | .any parts => (entering_allDisjuncts parts).bind fun _ => entering_emit _

theorem entering_formulas : ∀ fs : List Nnf, Entering [] (Nnf.formulas fs)
  | [] => entering_pure _
  | f :: fs => (entering_formula f).bind fun _ => entering_formulas fs

end

/-- An expression enters no name but the one it declares. -/
theorem entering_compile (e : Expr) : Entering e.declares?.toList (compile e) := by
  obtain ⟨name, values, heq, hcompile⟩ | ⟨names, heq, hcompile⟩ | hcompile := compile_cases e
  · rw [hcompile, Expr.declares?, heq]
    exact entering_declare name values
  · rw [hcompile]
    exact (entering_allDifferent names).mono (List.nil_subset _)
  · rw [hcompile]
    exact (entering_formula _).mono (List.nil_subset _)

end Compiler

end WeightedCsp

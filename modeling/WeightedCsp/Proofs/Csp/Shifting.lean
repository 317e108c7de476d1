import WeightedCsp.Proofs.Csp.Batch
import WeightedCsp.Proofs.Encoding.Shifting

/-!
# Compiling with other variables

A compiler that starts from shifted tables ends as it would have ended otherwise: it fails on the
same expression with the same error, or its tables and clauses are the shifted ones.  Each function
of the compiler has one lemma, in the order of the functions; the last one is for whole batches
(`Session.paired_compileAll`).

The literals of encoded variables come back from sums as variables of literals.  Therefore the
tables have to keep them below the limit of the shift, besides what the encoders need.
-/

namespace WeightedCsp

theorem lookup_mapValues {κ ν ν' : Type} [BEq κ] (f : ν → ν') (key : κ) (entries : List (κ × ν)) :
    (entries.map fun p => (p.1, f p.2)).lookup key = (entries.lookup key).map f := by
  induction entries with
  | nil => rfl
  | cons p entries ih =>
    rw [List.map_cons, List.lookup_cons, List.lookup_cons, ih]
    cases key == p.1 <;> rfl

namespace Shift

variable (k : Shift)

/-- The shifted encodings of variables. -/
def vars (xs : List (String × OrderVar)) : List (String × OrderVar) :=
  xs.map fun p => (p.1, k.orderVar p.2)

/-- The shifted atoms of equalities. -/
def atoms (as : List ((String × Int) × Atom)) : List ((String × Int) × Atom) :=
  as.map fun p => (p.1, k.atom p.2)

/-- The shifted tables.  The log has keys only, which have nothing to do with variables. -/
def tables (t : Tables) : Tables := ⟨k.cnf t.cnf, k.vars t.vars, k.atoms t.atoms, t.undo⟩

/-- A shifted variable is found where the variable is. -/
theorem lookup_vars (xs : List (String × OrderVar)) (name : String) :
    (k.vars xs).lookup name = (xs.lookup name).map k.orderVar := lookup_mapValues _ _ _

/-- Entries are removed by their keys, whatever their values. -/
theorem foldl_removeKey_mapValues {κ ν ν' : Type} [DecidableEq κ] (f : ν → ν') (log : List κ)
    (entries : List (κ × ν)) : log.foldl removeKey (entries.map fun p => (p.1, f p.2)) =
      (log.foldl removeKey entries).map fun p => (p.1, f p.2) := by
  rw [foldl_removeKey, foldl_removeKey, List.filter_map]
  rfl

/-- Rolling back looks at keys only. -/
theorem rollback_tables (t : Tables) : (k.tables t).rollback = k.tables t.rollback := by
  simp only [Tables.rollback, tables, vars, atoms, foldl_removeKey_mapValues]

/-! Nothing before the start is moved. -/

/-- Variables whose literals lie below the shift stay as they are. -/
theorem vars_of_below {xs : List (String × OrderVar)}
    (h : ∀ p ∈ xs, ∀ l ∈ p.2.lits, l.var < k.start) : k.vars xs = xs := by
  refine (List.map_congr_left fun p hp => ?_).trans (List.map_id xs)
  have hlits : p.2.lits.map k.lit = p.2.lits :=
    (List.map_congr_left fun l hl => k.lit_of_lt (h p hp l hl)).trans (List.map_id _)
  rw [orderVar, hlits]
  rfl

/-- Atoms below the shift stay as they are. -/
theorem atoms_of_below {as : List ((String × Int) × Atom)}
    (h : ∀ p ∈ as, p.2.Below k.start) : k.atoms as = as := by
  refine (List.map_congr_left fun p hp => ?_).trans (List.map_id as)
  obtain ⟨key, a⟩ := p
  cases a with
  | true => rfl
  | false => rfl
  | lit l =>
    rw [atom, k.lit_of_lt (h _ hp)]
    rfl

/-- The literals of the encoded variables are literals after shifting. -/
def Fits (xs : List (String × OrderVar)) : Prop := ∀ p ∈ xs, ∀ l ∈ p.2.lits, l.var < k.limit

/-- Runs of the compiler from tables and from the shifted ones. -/
def compiling : Alignment Tables where
  image := k.tables
  Valid t := k.encoding.Valid t.cnf ∧ k.Fits t.vars
  Room t := k.encoding.Room t.cnf

end Shift

namespace Compiler

open Step Encoder

variable {α β : Type} {k : Shift} {pre : Prop}

/-! ### The steps that touch the tables -/

/-- What a name stands for in the shifted tables is shifted. -/
theorem image_lookup (t : Tables) (name : String) :
    (k.compiling.image t).vars.lookup name = (t.vars.lookup name).map k.orderVar :=
  k.lookup_vars t.vars name

/-- The atom of an equality in the shifted tables is shifted. -/
theorem image_lookup_atom (t : Tables) (key : String × Int) :
    (k.compiling.image t).atoms.lookup key = (t.atoms.lookup key).map k.atom :=
  lookup_mapValues _ _ _

/-- A failing encoder leaves the tables apart from the clauses. -/
theorem emit_eq_error {x : Encoder EncodingError α} {t u : Tables} {e : Failure CompileError}
    (h : emit x t = .error e u) :
    ∃ e' cnf, x t.cnf = .error e' cnf ∧ e = e'.map .encoding ∧ u = { t with cnf := cnf } := by
  obtain ⟨cnf, vars, atoms, undo⟩ := t
  cases hx : x cnf with
  | ok a cnf' =>
    simp only [emit, hx] at h
    cases h
  | error e' cnf' =>
    simp only [emit, hx] at h
    cases h
    exact ⟨e', cnf', rfl, rfl, rfl⟩

/-- Encoders that go side by side do so on the clauses of the tables. -/
theorem twins_emit {x : Encoder EncodingError α} {y : Encoder EncodingError β} {post : α → β → Prop}
    (h : Twins k.encoding pre x y post) : Twins k.compiling pre (emit x) (emit y) post := by
  refine ⟨fun t => ?_, fun hp t a u hvalid hroom hx => ?_, fun hp t e u hvalid hroom hx => ?_⟩
  · rw [after_emit]
    exact h.back t.cnf
  · obtain ⟨cnf, hx', rfl⟩ := emit_eq_ok hx
    obtain ⟨hvalid', b, hy, hab⟩ := h.ok hp hvalid.1 hroom hx'
    refine ⟨⟨hvalid', hvalid.2⟩, b, ?_, hab⟩
    have hy' : y (k.cnf t.cnf) = .ok b (k.cnf cnf) := hy
    simp only [Shift.compiling, Shift.tables, emit, hy']
  · obtain ⟨e', cnf, hx', rfl, rfl⟩ := emit_eq_error hx
    have hy : y (k.cnf t.cnf) = .error e' (k.cnf cnf) := h.error hp hvalid.1 hroom hx'
    simp only [Shift.compiling, Shift.tables, emit, hy]

/-- A look-up as a step that reads the tables. -/
theorem lookup_eq (name : String) : lookup name =
    get >>= fun t => (t.vars.lookup name).elim (Step.fail (.undeclaredVariable name)) pure := by
  funext t
  rw [Step.get_bind_apply, lookup]
  cases t.vars.lookup name <;> rfl

/-- A look-up gives the shifted variable, and fails where it would have failed. -/
theorem twins_lookup (name : String) : Twins k.compiling True (lookup name) (lookup name)
    fun x x' => x' = k.orderVar x ∧ ∀ l ∈ x.lits, l.var < k.limit := by
  rw [lookup_eq]
  refine twins_get.bindMap fun t => ?_
  rw [image_lookup]
  cases hlookup : t.vars.lookup name with
  | none => exact twins_fail _
  | some x => exact twins_pure fun h => ⟨rfl, h.2.2 _ (Tables.mem_of_lookup hlookup)⟩

/-- Entering a shifted variable gives the shifted tables. -/
theorem twins_addVariable (name : String) (x : OrderVar) :
    Twins k.compiling (∀ l ∈ x.lits, l.var < k.limit) (addVariable name x)
      (addVariable name (k.orderVar x)) fun _ _ => True := by
  refine ⟨fun _ => id, fun hx t u w hvalid _ hadd => ?_, fun _ _ _ _ _ _ hadd => ?_⟩
  · cases hadd
    exact ⟨⟨hvalid.1, List.forall_mem_cons.2 ⟨hx, hvalid.2⟩⟩, (), rfl, trivial⟩
  · cases hadd

/-- Entering a shifted atom gives the shifted tables. -/
theorem paired_addAtom (name : String) (v : Int) (a : Atom) :
    Paired k.compiling (addAtom name v a) (addAtom name v (k.atom a)) := by
  refine ⟨fun _ => id, fun _ t u w hvalid _ hadd => ?_, fun _ _ _ _ _ _ hadd => ?_⟩
  · cases hadd
    exact ⟨hvalid, (), rfl, trivial⟩
  · cases hadd

/-- Clauses of shifted atoms are shifted clauses. -/
theorem paired_clause (as : List Atom) :
    Paired k.compiling (clause as) (clause (as.map k.atom)) :=
  twins_emit (paired_atomClause as)

theorem paired_clauses (cs : List (List Atom)) :
    Paired k.compiling (clauses cs) (clauses (cs.map (List.map k.atom))) := by
  induction cs with
  | nil => exact twins_pure fun _ => trivial
  | cons c cs ih => exact (paired_clause c).bind ih

/-! ### Statements -/

/-- A declaration can be shifted. -/
theorem paired_declare (name : String) (values : List Int) :
    Paired k.compiling (declare name values) (declare name values) := by
  unfold declare
  simp only
  split_ifs
  · exact twins_fail _
  · refine shifts_get.bind fun t => ?_
    rw [image_lookup]
    cases t.vars.lookup name with
    | some x =>
      have hvalues : (k.orderVar x).values = x.values := rfl
      simp only [Option.map_some, hvalues]
      split_ifs
      · exact twins_fail _
      · exact twins_pure fun _ => trivial
    | none =>
      refine (twins_emit (twins_orderVar _)).bindMap fun x => ?_
      exact (twins_addVariable name x).mono (fun h => h.2) fun _ _ _ h => h

/-- The atom of an equality can be shifted. -/
theorem shifts_equality (name : String) (v : Int) :
    Shifts k.compiling k.atom (equality name v) (equality name v) := by
  unfold equality
  refine shifts_get.bind fun t => ?_
  rw [image_lookup_atom]
  cases t.atoms.lookup (name, v) with
  | some a => exact twins_pure fun _ => rfl
  | none =>
    refine (twins_lookup name).bindMap fun x => ?_
    refine (twins_emit (shifts_eqAtom x v)).anyway.bindEq fun a => ?_
    exact (paired_addAtom name v a).bind (twins_pure fun _ => rfl)

/-- Shifted atoms that go with values. -/
def valued (k : Shift) (p : Int × Atom) : Int × Atom := (p.1, k.atom p.2)

/-- The atoms of several equalities can be shifted. -/
theorem shifts_equalities (name : String) (vs : List Int) :
    Shifts k.compiling (List.map (valued k)) (equalities name vs) (equalities name vs) := by
  induction vs with
  | nil => exact twins_pure fun _ => rfl
  | cons v vs ih =>
    exact (shifts_equality name v).bind fun a => ih.bind fun as => twins_pure fun _ => rfl

theorem shifts_allEqualities (names : List String) :
    Shifts k.compiling (List.map (valued k)) (allEqualities names) (allEqualities names) := by
  induction names with
  | nil => exact twins_pure fun _ => rfl
  | cons name names ih =>
    refine (twins_lookup name).bindMap fun x => ?_
    refine (shifts_equalities name x.values).bind fun own => ih.bind fun rest => ?_
    exact twins_pure fun _ => (List.map_append).symm

/-- That at most one atom is true is said alike of shifted atoms. -/
theorem atMostOne_map (as : List Atom) :
    atMostOne (as.map k.atom) = (atMostOne as).map (List.map k.atom) := by
  induction as with
  | nil => rfl
  | cons a as ih =>
    simp only [List.map_cons, atMostOne, ih, List.map_append, List.map_map]
    congr 1
    exact List.map_congr_left fun b _ => by simp

/-- The atoms of a value are the shifted ones. -/
theorem atomsOf_map (v : Int) (as : List (Int × Atom)) :
    atomsOf v (as.map (valued k)) = (atomsOf v as).map k.atom := by
  simp only [atomsOf, List.filter_map, List.map_map]
  rfl

/-- A demand of different values can be shifted. -/
theorem paired_allDifferent (names : List String) :
    Paired k.compiling (allDifferent names) (allDifferent names) := by
  refine (shifts_allEqualities names).bind fun as => ?_
  -- The values decide which pairs of atoms are formed, and they are not shifted.
  have hvalues : (as.map (valued k)).map (·.1) = as.map (·.1) := by
    rw [List.map_map]
    rfl
  have hclauses : ((Ascending.ofList (as.map (·.1))).flatMap fun v =>
      atMostOne (atomsOf v (as.map (valued k)))) =
      ((Ascending.ofList (as.map (·.1))).flatMap fun v => atMostOne (atomsOf v as)).map
        (List.map k.atom) := by
    simp only [List.map_flatMap, atomsOf_map, atMostOne_map]
  simp only [hvalues, hclauses]
  exact paired_clauses _

/-! ### Comparisons -/

/-- The atom of a bound can be shifted. -/
theorem boundAtom_orderVar (x : OrderVar) (c rhs : Int) :
    boundAtom (k.orderVar x) c rhs = (boundAtom x c rhs).map k.atom := by
  unfold boundAtom
  split_ifs
  · cases Word.divFloor rhs c with
    | error t => rfl
    | ok q => exact congrArg Except.ok (k.le_orderVar x q)
  · cases Word.divCeil rhs c with
    | error t => rfl
    | ok q => exact k.ge_orderVar x q

/-- A comparison with one variable can be shifted. -/
theorem shifts_termAtom (c : Int) (name : String) (op : Comparator) (rhs : Int) :
    Shifts k.compiling k.atom (termAtom c name op rhs) (termAtom c name op rhs) := by
  unfold termAtom
  split_ifs
  · refine twins_checked_bind _ fun r => ?_
    split_ifs
    · exact twins_checked_bind _ fun q => shifts_equality name q
    · exact twins_pure fun _ => rfl
  · refine twins_checked_bind _ fun p => (twins_lookup name).bindMap fun x => ?_
    refine (twins_checked fun _ => boundAtom_orderVar x p.1 p.2).mono id fun _ _ _ h => h.1

/-- The sign of an atom has nothing to do with its variable. -/
theorem signed_atom (positive : Bool) (a : Atom) :
    signed positive (k.atom a) = k.atom (signed positive a) := by
  cases positive with
  | true => rfl
  | false => exact (k.atom_not a).symm

theorem constAtom_atom (b : Bool) : k.atom (constAtom b) = constAtom b := by
  cases b <;> rfl

/-- The weights of shifted literals are scaled alike. -/
theorem scale_map (c : Int) (steps : List (Lit × Int)) :
    (steps.map k.tagged).mapM (fun (l, w) => do return (l, ← Word.mul c w)) =
      (steps.mapM (fun (l, w) => do return (l, ← Word.mul c w)) : Checked _).map
        (List.map k.tagged) := by
  induction steps with
  | nil => rfl
  | cons p steps ih =>
    rw [List.map_cons, List.mapM_cons, List.mapM_cons, ih]
    simp only [Shift.tagged]
    cases Word.mul c p.2 with
    | error t => rfl
    | ok w => cases steps.mapM fun (l, w) => do return (l, ← Word.mul c w) <;> rfl

/-- The literals of a sum are shifted, and they are literals of encoded variables. -/
theorem twins_weightedSum (terms : List NamedTerm) (offset : Int) :
    Twins k.compiling True (weightedSum offset terms) (weightedSum offset terms) fun r r' =>
      r' = (r.1.map k.tagged, r.2) ∧ ∀ p ∈ r.1, p.1.var < k.limit := by
  induction terms generalizing offset with
  | nil => exact twins_pure fun _ => ⟨rfl, by simp⟩
  | cons term terms ih =>
    obtain ⟨c, name⟩ := term
    refine (twins_lookup name).bindMap fun x => ?_
    refine (twins_checked fun _ => k.steps_map x.values x.lits).bindMap fun steps => ?_
    refine twins_checked_bind _ fun offset' => ?_
    refine (twins_checked fun _ => scale_map c steps).bindMap fun scaled => ?_
    refine (ih offset').anyway.bindMap fun r => twins_pure fun h => ?_
    -- Scaling and taking steps keep the literals, so they stay below the limit.
    obtain ⟨⟨⟨⟨-, hlits⟩, hsteps⟩, hscaled⟩, hrest⟩ := h
    refine ⟨by rw [List.map_append], List.forall_mem_append.2 ⟨?_, hrest⟩⟩
    exact (total_scale hscaled).2 _ (OrderVar.below_steps hlits hsteps)

/-- A sum can be shifted. -/
theorem paired_sum (terms : List NamedTerm) (op : Comparator) (rhs : Int) :
    Paired k.compiling (sum terms op rhs) (sum terms op rhs) := by
  refine (twins_weightedSum terms 0).bindMap fun r => twins_checked_bind _ fun bound => ?_
  have hmost := fun bound => twins_emit (PseudoBoolean.twins_encodeAtMost (k := k) r.1 bound)
  have hleast := fun bound => twins_emit (PseudoBoolean.twins_encodeAtLeast (k := k) r.1 bound)
  refine Twins.mono ?_ (fun h => h.2) fun _ _ _ h => h
  cases op with
  | le => exact hmost _
  | lt => exact twins_checked_bind _ fun _ => hmost _
  | ge => exact hleast _
  | gt => exact twins_checked_bind _ fun _ => hleast _
  | eq =>
    exact (hmost _).bind fun _ _ => (hleast _).mono (fun h => h.1) fun _ _ _ h => h

theorem paired_misplaced (e : Expr) : Paired k.compiling (misplaced e) (misplaced e) :=
  twins_checked_bind _ fun _ => twins_fail _

theorem shifts_nested (e : Expr) : Shifts k.compiling k.atom (nested e) (nested e) :=
  twins_checked_bind _ fun _ => twins_fail _

/-- A demand can be shifted. -/
theorem paired_demand (terms : List NamedTerm) (op : Comparator) (rhs : Int) (positive : Bool) :
    Paired k.compiling (demand terms op rhs positive) (demand terms op rhs positive) := by
  refine twins_checked_bind _ fun merged => ?_
  split
  · have hconst := paired_clause (k := k) [signed positive (constAtom (op.holds 0 rhs))]
    rwa [List.map_singleton, ← signed_atom, constAtom_atom] at hconst
  · refine (shifts_termAtom _ _ _ _).bind fun a => ?_
    rw [signed_atom]
    exact paired_clause [signed positive a]
  · split_ifs
    · exact paired_sum _ _ _
    · split
      · exact paired_sum _ _ _
      · exact paired_misplaced _

/-- A comparison inside a formula can be shifted. -/
theorem shifts_comparison (terms : List NamedTerm) (op : Comparator) (rhs : Int)
    (positive : Bool) : Shifts k.compiling k.atom (comparison terms op rhs positive)
      (comparison terms op rhs positive) := by
  refine twins_checked_bind _ fun merged => ?_
  split
  · exact twins_pure fun _ => by rw [← signed_atom, constAtom_atom]
  · exact (shifts_termAtom _ _ _ _).bind fun a => twins_pure fun _ => signed_atom positive a
  · exact shifts_nested _

/-! ### Formulas -/

/-- No atom becomes a constant by a shift. -/
theorem atom_eq_const_iff {a c : Atom} (hc : c = .true ∨ c = .false) : k.atom a = c ↔ a = c := by
  rcases hc with rfl | rfl
  · cases a <;> simp [Shift.atom]
  · cases a <;> simp [Shift.atom]

theorem mem_atoms_const {as : List Atom} {c : Atom} (hc : c = .true ∨ c = .false) :
    c ∈ as.map k.atom ↔ c ∈ as := by
  simp [atom_eq_const_iff hc]

theorem filter_atoms_const {as : List Atom} {c : Atom} (hc : c = .true ∨ c = .false) :
    (as.map k.atom).filter (· ≠ c) = (as.filter (· ≠ c)).map k.atom := by
  rw [List.filter_map]
  congr 1
  exact List.filter_congr fun a _ => by simp [atom_eq_const_iff hc]

/-- The literal of a conjunction can be shifted. -/
theorem shifts_nameAll (as : List Atom) :
    Shifts k.compiling k.atom (nameAll as) (nameAll (as.map k.atom)) := by
  unfold nameAll
  rw [filter_atoms_const (.inl rfl)]
  simp only [mem_atoms_const (k := k) (c := Atom.false) (.inr rfl)]
  split_ifs
  · exact twins_pure fun _ => rfl
  · generalize as.filter (· ≠ .true) = rest
    rcases rest with _ | ⟨a, _ | ⟨b, rest⟩⟩
    · exact twins_pure fun _ => rfl
    · exact twins_pure fun _ => rfl
    · refine (twins_emit twins_newLit).bindMap fun l => ?_
      have hclauses : ((a :: b :: rest).map k.atom).map (fun c => [.lit (k.lit l).not, c]) =
          ((a :: b :: rest).map fun c => [.lit l.not, c]).map (List.map k.atom) := by
        rw [List.map_map, List.map_map]
        rfl
      have hpaired := paired_clauses (k := k) ((a :: b :: rest).map fun c => [.lit l.not, c])
      rw [← hclauses] at hpaired
      exact hpaired.bind (twins_pure fun _ => rfl)

/-- The literal of a disjunction can be shifted. -/
theorem shifts_nameAny (as : List Atom) :
    Shifts k.compiling k.atom (nameAny as) (nameAny (as.map k.atom)) := by
  unfold nameAny
  rw [filter_atoms_const (.inr rfl)]
  simp only [mem_atoms_const (k := k) (c := Atom.true) (.inl rfl)]
  split_ifs
  · exact twins_pure fun _ => rfl
  · generalize as.filter (· ≠ .false) = rest
    rcases rest with _ | ⟨a, _ | ⟨b, rest⟩⟩
    · exact twins_pure fun _ => rfl
    · exact twins_pure fun _ => rfl
    · refine (twins_emit twins_newLit).bindMap fun l => ?_
      exact (paired_clause (.lit l.not :: a :: b :: rest)).bind (twins_pure fun _ => rfl)

mutual

/-- The disjuncts of a formula can be shifted. -/
theorem shifts_disjuncts : ∀ f : Nnf,
    Shifts k.compiling (List.map k.atom) f.disjuncts f.disjuncts
  | .compare .. => (shifts_comparison _ _ _ _).bind fun _ => twins_pure fun _ => rfl
  | .statement _ => (shifts_nested _).bind fun _ => twins_pure fun _ => rfl
  | .all parts => (shifts_allConjuncts parts).bind fun as =>
      (shifts_nameAll as).bind fun _ => twins_pure fun _ => rfl
  | .any parts => shifts_allDisjuncts parts

theorem shifts_allDisjuncts : ∀ fs : List Nnf,
    Shifts k.compiling (List.map k.atom) (Nnf.allDisjuncts fs) (Nnf.allDisjuncts fs)
  | [] => twins_pure fun _ => rfl
  | f :: fs => (shifts_disjuncts f).bind fun _ => (shifts_allDisjuncts fs).bind fun _ =>
      twins_pure fun _ => List.map_append.symm

/-- The conjuncts of a formula can be shifted. -/
theorem shifts_conjuncts : ∀ f : Nnf,
    Shifts k.compiling (List.map k.atom) f.conjuncts f.conjuncts
  | .compare .. => (shifts_comparison _ _ _ _).bind fun _ => twins_pure fun _ => rfl
  | .statement _ => (shifts_nested _).bind fun _ => twins_pure fun _ => rfl
  | .all parts => shifts_allConjuncts parts
  | .any parts => (shifts_allDisjuncts parts).bind fun as =>
      (shifts_nameAny as).bind fun _ => twins_pure fun _ => rfl

theorem shifts_allConjuncts : ∀ fs : List Nnf,
    Shifts k.compiling (List.map k.atom) (Nnf.allConjuncts fs) (Nnf.allConjuncts fs)
  | [] => twins_pure fun _ => rfl
  | f :: fs => (shifts_conjuncts f).bind fun _ => (shifts_allConjuncts fs).bind fun _ =>
      twins_pure fun _ => List.map_append.symm

end

mutual

/-- A formula can be shifted. -/
theorem paired_formula : ∀ f : Nnf, Paired k.compiling f.formula f.formula
  | .compare .. => paired_demand _ _ _ _
  | .statement _ => paired_misplaced _
  | .all parts => paired_formulas parts
  | .any parts => (shifts_allDisjuncts parts).bind fun as => paired_clause as

theorem paired_formulas : ∀ fs : List Nnf, Paired k.compiling (Nnf.formulas fs) (Nnf.formulas fs)
  | [] => twins_pure fun _ => trivial
  | f :: fs => (paired_formula f).bind (paired_formulas fs)

end

/-! ### Expressions and batches -/

/-- Whatever is compiled can be shifted. -/
theorem paired_compile (e : Expr) : Paired k.compiling (compile e) (compile e) := by
  obtain ⟨name, values, -, heq⟩ | ⟨names, -, heq⟩ | heq := compile_cases e
  · rw [heq]
    exact paired_declare name values
  · rw [heq]
    exact paired_allDifferent names
  · rw [heq]
    exact paired_formula _

end Compiler

namespace Session

open Step

variable {k : Shift}

/-- A batch gains no room for variables. -/
theorem back_compileAll (es : List Expr) :
    (compileAll es).Follows fun t u => k.compiling.Room u → k.compiling.Room t :=
  fun t hroom => Nat.le_trans (Nat.add_le_add_right (growing_cnf_compileAll es t).next_le _) hroom

/-- What a failure leaves is shifted with the tables. -/
theorem leftBy_tables (f : Failure CompileError) (t : Tables) :
    leftBy f (k.tables t) = k.tables (leftBy f t) := by
  cases f with
  | fault f => rfl
  | error cause => exact k.rollback_tables t

/-- **Batches.** From shifted tables a batch fails on the same expression with the same error, or
its tables and clauses are the shifted ones. -/
theorem paired_compileAll (es : List Expr) :
    Paired k.compiling (compileAll es) (compileAll es) := by
  induction es with
  | nil => exact twins_pure fun _ => trivial
  | cons e es ih =>
    have hfirst := Compiler.paired_compile (k := k) e
    refine ⟨back_compileAll _, fun _ t x u hvalid hroom h => ?_,
      fun _ t f u hvalid hroom h => ?_⟩
    · obtain ⟨y, t₁, he, hes⟩ := compileAll_cons_eq_ok h
      have hroom₁ := (back_compileAll es).ok hes hroom
      obtain ⟨hvalid₁, y', he', -⟩ := hfirst.ok trivial hvalid hroom₁ he
      rw [compileAll_cons, he']
      exact ih.ok trivial hvalid₁ hroom hes
    · -- The failing expression is the first one or a later one, from shifted tables too.
      rw [compileAll_cons] at h ⊢
      cases he : Compiler.compile e t with
      | ok y t₁ =>
        simp only [he] at h
        have hroom₁ := (back_compileAll es).error h hroom
        obtain ⟨hvalid₁, y', he', -⟩ := hfirst.ok trivial hvalid hroom₁ he
        rw [he']
        exact ih.error trivial hvalid₁ hroom h
      | error g t₁ =>
        simp only [he] at h
        obtain ⟨rfl, rfl⟩ := EStateM.Result.error.inj h
        have hroom₁ : k.compiling.Room t₁ := by
          simpa only [Shift.compiling, cnf_leftBy] using hroom
        rw [hfirst.error trivial hvalid hroom₁ he]
        exact congrArg (EStateM.Result.error _) (leftBy_tables g t₁)

end Session

end WeightedCsp

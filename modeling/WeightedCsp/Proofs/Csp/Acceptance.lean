import WeightedCsp.Proofs.Csp.Session

/-!
# Expressions that are accepted

An expression whose names are declared compiles, up to a failing encoding, if inside a formula each
comparison is of at most one variable (`Expr.Fits`).  No function of the compiler but a declaration
touches the encoded variables, so once declared a name stays declared (`Compiler.Keeps`).

A batch is accepted (`Accepts`) if each expression fits the names declared before it and each name
is declared over one list of values, wherever it is declared.  Then committing fails by an encoding
or by the backend only (`SessionError.External`), and so does everything that commits first.
-/

namespace WeightedCsp

namespace Compiler

variable {α β : Type} {names : List String}

/-- Where the names are encoded, the run leaves the encoded variables as they are, and fails by an
encoding only. -/
def Keeps (names : List String) (x : Compiler α) : Prop :=
  ∀ t : Tables, (∀ n ∈ names, n ∈ t.vars.map (·.1)) →
    match x t with
    | .ok _ u => u.vars = t.vars
    | .error (.fault _) _ => True
    | .error (.error e) _ => ∃ cause, e = .encoding cause

/-- Sequencing: what follows may count on the same names. -/
theorem Keeps.bind {x : Compiler α} {f : α → Compiler β} (hx : Keeps names x)
    (hf : ∀ a, Keeps names (f a)) : Keeps names (x >>= f) := by
  intro t ht
  have hfirst := hx t ht
  show match EStateM.bind x f t with
    | .ok _ u => u.vars = t.vars
    | .error (.fault _) _ => True
    | .error (.error e) _ => ∃ cause, e = .encoding cause
  unfold EStateM.bind
  cases h : x t with
  | error e u =>
    rw [h] at hfirst
    cases e with
    | fault _ => trivial
    | error _ => exact hfirst
  | ok a u =>
    rw [h] at hfirst
    have hnext := hf a u (by rwa [hfirst])
    rw [hfirst] at hnext
    exact hnext

/-- A result without a step keeps everything. -/
theorem keeps_pure (a : α) : Keeps names (pure a : Compiler α) := fun _ _ => rfl

theorem keeps_get : Keeps names (get : Compiler Tables) := fun _ _ => rfl

/-- A computation without state keeps everything. -/
theorem keeps_checked (c : Checked α) : Keeps names (liftM c : Compiler α) := by
  intro t _
  cases c with
  | ok a => exact rfl
  | error f => trivial

/-- After a computation that succeeds its result is known. -/
theorem keeps_bind_checked {c : Checked α} {f : α → Compiler β}
    (hf : ∀ a, c = .ok a → Keeps names (f a)) : Keeps names (liftM c >>= f) := by
  cases c with
  | ok a => exact hf a rfl
  | error t => exact fun _ _ => trivial

/-- What an encoder adds has nothing to do with names. -/
theorem keeps_emit (x : Encoder EncodingError α) : Keeps names (emit x) := by
  intro t _
  obtain ⟨cnf, vars, atoms⟩ := t
  unfold emit
  cases h : x cnf with
  | ok a cnf' => simp only [h]
  | error e cnf' =>
    cases e with
    | fault _ => simp only [h, Failure.map]
    | error e =>
      simp only [h, Failure.map]
      exact ⟨e, rfl⟩

/-- A name that is declared is found. -/
theorem keeps_lookup {name : String} (h : name ∈ names) : Keeps names (lookup name) := by
  intro t ht
  unfold lookup
  cases hlookup : t.vars.lookup name with
  | some x => exact rfl
  | none =>
    obtain ⟨p, hp, rfl⟩ := List.mem_map.1 (ht name h)
    have := List.lookup_eq_none_iff.1 hlookup p hp
    simp at this

/-- Clauses have nothing to do with names. -/
theorem keeps_clause (atoms : List Atom) : Keeps names (clause atoms) := keeps_emit _

theorem keeps_clauses : ∀ cs : List (List Atom), Keeps names (clauses cs)
  | [] => keeps_pure _
  | c :: cs => (keeps_clause c).bind fun _ => keeps_clauses cs

/-! ### Statements -/

/-- An equality can be asked for of every declared variable. -/
theorem keeps_equality {name : String} (h : name ∈ names) (k : Int) :
    Keeps names (equality name k) := by
  refine keeps_get.bind fun t => ?_
  split
  · exact keeps_pure _
  · refine (keeps_lookup h).bind fun x => (keeps_emit _).bind fun a => ?_
    exact Keeps.bind (fun _ _ => rfl) fun _ => keeps_pure _

/-- All equalities of a declared variable can be asked for. -/
theorem keeps_equalities {name : String} (h : name ∈ names) :
    ∀ ks : List Int, Keeps names (equalities name ks)
  | [] => keeps_pure _
  | k :: ks => (keeps_equality h k).bind fun _ => (keeps_equalities h ks).bind fun _ => keeps_pure _

/-- All equalities of declared variables can be asked for. -/
theorem keeps_allEqualities : ∀ {xs : List String}, (∀ x ∈ xs, x ∈ names) →
    Keeps names (allEqualities xs)
  | [], _ => keeps_pure _
  | x :: xs, h => by
    obtain ⟨hx, hxs⟩ := List.forall_mem_cons.1 h
    refine (keeps_lookup hx).bind fun y => (keeps_equalities hx _).bind fun own => ?_
    exact (keeps_allEqualities hxs).bind fun _ => keeps_pure _

theorem keeps_allDifferent {xs : List String} (h : ∀ x ∈ xs, x ∈ names) :
    Keeps names (allDifferent xs) :=
  (keeps_allEqualities h).bind fun _ => keeps_clauses _

/-! ### Comparisons -/

/-- Merging a term makes up no name. -/
theorem names_mergeTerm {c : Int} {name : String} {terms merged : List NamedTerm}
    (h : mergeTerm c name terms = .ok merged) :
    ∀ t ∈ merged, t.2 = name ∨ t.2 ∈ terms.map (·.2) := by
  induction terms generalizing merged with
  | nil =>
    cases h
    simp
  | cons d terms ih =>
    obtain ⟨d, x⟩ := d
    rw [mergeTerm] at h
    split_ifs at h with hx
    · obtain ⟨e, -, h₁⟩ := Checked.bind_eq_ok.1 h
      cases h₁
      intro t ht
      rcases List.mem_cons.1 ht with rfl | ht
      · exact .inl hx
      · exact .inr (List.mem_cons_of_mem _ (List.mem_map_of_mem ht))
    · obtain ⟨rest, hrest, h₁⟩ := Checked.bind_eq_ok.1 h
      cases h₁
      intro t ht
      rcases List.mem_cons.1 ht with rfl | ht
      · exact .inr (by simp)
      · exact (ih hrest t ht).imp_right fun hmem => List.mem_cons_of_mem _ hmem

/-- Merging terms makes up no name. -/
theorem names_mergeAll {merged terms all : List NamedTerm} (h : mergeAll merged terms = .ok all) :
    ∀ t ∈ all, t.2 ∈ merged.map (·.2) ∨ t.2 ∈ terms.map (·.2) := by
  induction terms generalizing merged with
  | nil =>
    cases h
    exact fun t ht => .inl (List.mem_map_of_mem ht)
  | cons d terms ih =>
    obtain ⟨d, x⟩ := d
    rw [mergeAll] at h
    obtain ⟨next, hnext, h₁⟩ := Checked.bind_eq_ok.1 h
    intro t ht
    rcases ih h₁ t ht with hmem | hmem
    · obtain ⟨s, hs, heq⟩ := List.mem_map.1 hmem
      rw [← heq]
      rcases names_mergeTerm hnext s hs with rfl | hold
      · exact .inr (by simp)
      · exact .inl hold
    · exact .inr (List.mem_cons_of_mem _ hmem)

/-- Merged terms speak of the variables of the given ones. -/
theorem names_mergeTerms {terms merged : List NamedTerm} (h : mergeTerms terms = .ok merged)
    (hnames : ∀ t ∈ terms, t.2 ∈ names) : ∀ t ∈ merged, t.2 ∈ names := by
  obtain ⟨all, hall, h₁⟩ := Checked.bind_eq_ok.1 h
  cases h₁
  intro t ht
  rcases names_mergeAll hall t (List.mem_filter.1 ht).1 with hmem | hmem
  · simp at hmem
  · obtain ⟨s, hs, heq⟩ := List.mem_map.1 hmem
    rw [← heq]
    exact hnames s hs

/-- A sum of at most one term stays one. -/
theorem length_mergeTerms {terms merged : List NamedTerm} (h : mergeTerms terms = .ok merged)
    (hlength : terms.length ≤ 1) : merged.length ≤ 1 := by
  obtain ⟨all, hall, h₁⟩ := Checked.bind_eq_ok.1 h
  cases h₁
  refine (List.length_filter_le _ _).trans ?_
  rcases terms with _ | ⟨t, _ | ⟨t', rest⟩⟩
  · cases hall
    exact Nat.zero_le _
  · cases hall
    exact Nat.le_refl _
  · simp at hlength

/-- A term of a declared variable can be compared. -/
theorem keeps_termAtom (c : Int) {name : String} (h : name ∈ names) (op : Comparator) (rhs : Int) :
    Keeps names (termAtom c name op rhs) := by
  unfold termAtom
  split_ifs
  · refine (keeps_checked _).bind fun r => ?_
    split_ifs
    · exact (keeps_checked _).bind fun q => keeps_equality h q
    · exact keeps_pure _
  · exact (keeps_checked _).bind fun r => (keeps_lookup h).bind fun x => keeps_checked _

/-- A sum over declared variables can be made. -/
theorem keeps_weightedSum : ∀ {terms : List NamedTerm} (_ : ∀ t ∈ terms, t.2 ∈ names)
    (offset : Int), Keeps names (weightedSum offset terms)
  | [], _, _ => keeps_pure _
  | (c, x) :: terms, h, offset => by
    obtain ⟨hx, hrest⟩ := List.forall_mem_cons.1 h
    refine (keeps_lookup hx).bind fun y => (keeps_checked _).bind fun steps => ?_
    refine (keeps_checked _).bind fun offset' => (keeps_checked _).bind fun scaled => ?_
    exact (keeps_weightedSum hrest offset').bind fun r => keeps_pure _

theorem keeps_sum {terms : List NamedTerm} (h : ∀ t ∈ terms, t.2 ∈ names) (op : Comparator)
    (rhs : Int) : Keeps names (sum terms op rhs) := by
  refine (keeps_weightedSum h 0).bind fun r => (keeps_checked _).bind fun rhs' => ?_
  cases op with
  | le => exact keeps_emit _
  | ge => exact keeps_emit _
  | lt => exact (keeps_checked _).bind fun _ => keeps_emit _
  | gt => exact (keeps_checked _).bind fun _ => keeps_emit _
  | eq => exact (keeps_emit _).bind fun _ => keeps_emit _

/-- A demand on declared variables fails by an encoding only. -/
theorem keeps_demand {terms : List NamedTerm} (h : ∀ t ∈ terms, t.2 ∈ names) (op : Comparator)
    (rhs : Int) : Keeps names (demand terms op rhs true) := by
  refine keeps_bind_checked fun merged hmerged => ?_
  have hnames := names_mergeTerms hmerged h
  rcases merged with _ | ⟨⟨c, x⟩, _ | ⟨t, rest⟩⟩
  · exact keeps_clause _
  · exact (keeps_termAtom c (hnames (c, x) (by simp)) op rhs).bind fun a => keeps_clause _
  · exact keeps_sum hnames op rhs

/-- A comparison with at most one variable can be given a literal. -/
theorem keeps_comparison {terms : List NamedTerm} (h : ∀ t ∈ terms, t.2 ∈ names)
    (hlength : terms.length ≤ 1) (op : Comparator) (rhs : Int) (positive : Bool) :
    Keeps names (comparison terms op rhs positive) := by
  refine keeps_bind_checked fun merged hmerged => ?_
  have hnames := names_mergeTerms hmerged h
  have hshort := length_mergeTerms hmerged hlength
  rcases merged with _ | ⟨⟨c, x⟩, _ | ⟨t, rest⟩⟩
  · exact keeps_pure _
  · exact (keeps_termAtom c (hnames (c, x) (by simp)) op rhs).bind fun a => keeps_pure _
  · simp at hshort

/-! ### Formulas -/

theorem keeps_nameAll (atoms : List Atom) : Keeps names (nameAll atoms) := by
  unfold nameAll
  split_ifs
  · exact keeps_pure _
  · split
    · exact keeps_pure _
    · exact keeps_pure _
    · exact (keeps_emit _).bind fun t => (keeps_clauses _).bind fun _ => keeps_pure _

theorem keeps_nameAny (atoms : List Atom) : Keeps names (nameAny atoms) := by
  unfold nameAny
  split_ifs
  · exact keeps_pure _
  · split
    · exact keeps_pure _
    · exact keeps_pure _
    · exact (keeps_emit _).bind fun t => (keeps_clause _).bind fun _ => keeps_pure _

end Compiler

namespace Nnf

mutual

/-- Each comparison is of at most one variable, and that is one of the names. -/
def Single (names : List String) : Nnf → Prop
  | .compare terms _ _ _ => terms.length ≤ 1 ∧ ∀ t ∈ terms, t.2 ∈ names
  | .statement _ => False
  | .all parts => AllSingle names parts
  | .any parts => AllSingle names parts

/-- In all the formulas each comparison is of at most one variable. -/
def AllSingle (names : List String) : List Nnf → Prop
  | [] => True
  | f :: fs => f.Single names ∧ AllSingle names fs

end

mutual

/-- More names can be declared. -/
theorem Single.mono {names names' : List String} (hsub : names ⊆ names') :
    ∀ f : Nnf, f.Single names → f.Single names'
  | .compare _ _ _ _, h => ⟨h.1, fun t ht => hsub (h.2 t ht)⟩
  | .statement _, h => h
  | .all parts, h => AllSingle.mono hsub parts h
  | .any parts, h => AllSingle.mono hsub parts h

theorem AllSingle.mono {names names' : List String} (hsub : names ⊆ names') :
    ∀ fs : List Nnf, AllSingle names fs → AllSingle names' fs
  | [], _ => trivial
  | f :: fs, h => ⟨Single.mono hsub f h.1, AllSingle.mono hsub fs h.2⟩

end

end Nnf

namespace Compiler

variable {names : List String}

mutual

/-- A part of which every comparison has at most one variable has disjuncts. -/
theorem keeps_disjuncts : ∀ f : Nnf, f.Single names → Keeps names f.disjuncts
  | .compare _ op rhs positive, h =>
    (keeps_comparison h.2 h.1 op rhs positive).bind fun _ => keeps_pure _
  | .all parts, h =>
    (keeps_allConjuncts parts h).bind fun _ => (keeps_nameAll _).bind fun _ => keeps_pure _
  | .any parts, h => keeps_allDisjuncts parts h

theorem keeps_allDisjuncts : ∀ fs : List Nnf, Nnf.AllSingle names fs →
    Keeps names (Nnf.allDisjuncts fs)
  | [], _ => keeps_pure _
  | f :: fs, h =>
    (keeps_disjuncts f h.1).bind fun _ => (keeps_allDisjuncts fs h.2).bind fun _ => keeps_pure _

/-- A part of which every comparison has at most one variable has conjuncts. -/
theorem keeps_conjuncts : ∀ f : Nnf, f.Single names → Keeps names f.conjuncts
  | .compare _ op rhs positive, h =>
    (keeps_comparison h.2 h.1 op rhs positive).bind fun _ => keeps_pure _
  | .all parts, h => keeps_allConjuncts parts h
  | .any parts, h =>
    (keeps_allDisjuncts parts h).bind fun _ => (keeps_nameAny _).bind fun _ => keeps_pure _

theorem keeps_allConjuncts : ∀ fs : List Nnf, Nnf.AllSingle names fs →
    Keeps names (Nnf.allConjuncts fs)
  | [], _ => keeps_pure _
  | f :: fs, h =>
    (keeps_conjuncts f h.1).bind fun _ => (keeps_allConjuncts fs h.2).bind fun _ => keeps_pure _

end

end Compiler

/-! ### Batches -/

namespace Expr

/-- The expression is accepted where the names are declared: a declaration is over the values that
the name has everywhere, a comparison and an all-different statement are over declared names, and
anything else is a disjunction of formulas that compare one variable at a time. -/
def Fits (values : String → List Int) (names : List String) (e : Expr) : Prop :=
  match e.unlabeled with
  | .int name own => own = values name ∧ own ≠ []
  | .linear terms _ _ => ∀ t ∈ terms, t.2 ∈ names
  | .allDifferent xs => ∀ x ∈ xs, x ∈ names
  | e => ∃ parts, e.nnf true = .any parts ∧ Nnf.AllSingle names parts

/-- The expressions are accepted one after the other. -/
def Accepts (values : String → List Int) : List String → List Expr → Prop
  | _, [] => True
  | names, e :: es => e.Fits values names ∧ Accepts values (names ++ e.declares?.toList) es

variable {values : String → List Int} {names names' : List String}

/-- An expression that fits fits where more names are declared. -/
theorem Fits.mono {e : Expr} (h : e.Fits values names) (hsub : names ⊆ names') :
    e.Fits values names' := by
  unfold Fits at h ⊢
  split at h
  · exact h
  · exact fun t ht => hsub (h t ht)
  · exact fun x hx => hsub (h x hx)
  · obtain ⟨parts, hnnf, hparts⟩ := h
    exact ⟨parts, hnnf, Nnf.AllSingle.mono hsub parts hparts⟩

/-- Expressions that are accepted are accepted where more names are declared. -/
theorem Accepts.mono {es : List Expr} (h : Accepts values names es) (hsub : names ⊆ names') :
    Accepts values names' es := by
  induction es generalizing names names' with
  | nil => trivial
  | cons e es ih =>
    refine ⟨h.1.mono hsub, ih h.2 ?_⟩
    exact List.append_subset.2 ⟨fun n hn => List.mem_append_left _ (hsub hn),
      List.subset_append_right _ _⟩

/-- Expressions that fit the names are accepted in any order. -/
theorem accepts_of_forall {es : List Expr} (h : ∀ e ∈ es, e.Fits values names) :
    Accepts values names es := by
  induction es with
  | nil => trivial
  | cons e es ih =>
    obtain ⟨he, hrest⟩ := List.forall_mem_cons.1 h
    exact ⟨he, (ih hrest).mono (List.subset_append_left _ _)⟩

/-- A list of expressions is accepted if its second half is after the names of the first. -/
theorem accepts_append {es fs : List Expr} : Accepts values names (es ++ fs) ↔
    Accepts values names es ∧ Accepts values (names ++ declaredBy es) fs := by
  induction es generalizing names with
  | nil => simp [Accepts, declaredBy]
  | cons e es ih =>
    rw [List.cons_append, Accepts, Accepts, ih, declaredBy_cons, List.append_assoc, and_assoc]

/-- Batches that are accepted on their own are accepted one after the other. -/
theorem accepts_flatMap {α : Type} {f : α → List Expr} {as : List α}
    (h : ∀ a ∈ as, Accepts values names (f a)) : Accepts values names (as.flatMap f) := by
  induction as with
  | nil => trivial
  | cons a as ih =>
    obtain ⟨ha, hrest⟩ := List.forall_mem_cons.1 h
    rw [List.flatMap_cons, accepts_append]
    exact ⟨ha, (ih hrest).mono (List.subset_append_left _ _)⟩

end Expr

namespace Compiler

variable {values : String → List Int} {names : List String} {t u : Tables}

/-- Every encoded variable is over the values of its name. -/
def Agrees (values : String → List Int) (t : Tables) : Prop :=
  ∀ p ∈ t.vars, p.2.values = Ascending.ofList (values p.1)

/-- The names are encoded. -/
def Encoded (names : List String) (t : Tables) : Prop := ∀ n ∈ names, n ∈ t.vars.map (·.1)

/-- A step that keeps the names declares nothing. -/
theorem Keeps.ok {α : Type} {x : Compiler α} {a : α} (h : Keeps names x) (ht : Encoded names t)
    (hx : x t = .ok a u) : u.vars = t.vars := by
  have := h t ht
  rwa [hx] at this

/-- A step that keeps the names can fail at an encoding only. -/
theorem Keeps.error {α : Type} {x : Compiler α} {e : CompileError} (h : Keeps names x)
    (ht : Encoded names t) (hx : x t = .error (.error e) u) : ∃ cause, e = .encoding cause := by
  have := h t ht
  rwa [hx] at this

theorem values_encode {ε : Type} {ks : List Int} {s s' : Cnf} {x : OrderVar}
    (h : (OrderVar.encode ks : Encoder ε OrderVar) s = .ok x s') : x.values = ks := by
  by_cases hempty : ks.isEmpty = true
  · simp only [OrderVar.encode, hempty, ↓reduceIte] at h
    cases h
  · simp only [OrderVar.encode, hempty, Bool.false_eq_true, ↓reduceIte] at h
    obtain ⟨lits, s₁, -, h₁⟩ := Step.bind_eq_ok.1 h
    obtain ⟨_, s₂, -, h₂⟩ := Step.bind_eq_ok.1 h₁
    obtain ⟨rfl, -⟩ := Step.pure_eq_ok.1 h₂
    rfl

/-- A declaration with the values that the name stands for can fail at an encoding only. -/
theorem declare_error {name : String} {e : CompileError} (ht : Agrees values t)
    (hne : values name ≠ []) (h : declare name (values name) t = .error (.error e) u) :
    ∃ cause, e = .encoding cause := by
  unfold declare at h
  simp only at h
  split_ifs at h with hempty
  · exact absurd (List.isEmpty_iff.1 hempty) (Ascending.ofList_ne_nil hne)
  rcases Step.bind_eq_error.1 h with hget | ⟨s, t₁, hget, h₁⟩
  · exact absurd hget (by simp)
  obtain ⟨rfl, rfl⟩ := Step.get_eq_ok.1 hget
  cases hlookup : t.vars.lookup name with
  -- A variable that is declared again has the same values.
  | some y =>
    simp only [hlookup] at h₁
    rw [if_neg (not_not.2 (ht _ (Tables.mem_of_lookup hlookup)))] at h₁
    exact absurd h₁ (by simp)
  | none =>
    simp only [hlookup] at h₁
    -- A new variable can fail in its encoding only.
    rcases Step.bind_eq_error.1 h₁ with hemit | ⟨y, t₂, -, hadd⟩
    · have hkeeps : Keeps [] (emit (OrderVar.encode (Ascending.ofList (values name)))) :=
        keeps_emit _
      exact hkeeps.error (by simp [Encoded]) hemit
    · cases hadd

/-- An expression that declares nothing keeps the names it speaks of. -/
theorem keeps_compile {e : Expr} (hfits : e.Fits values names) (hnone : e.declares? = none) :
    Keeps names (compile e) := by
  unfold Expr.Fits at hfits
  unfold Expr.declares? at hnone
  rw [compile_nnf]
  -- A formula that is a disjunction at the top is a clause of its parts.
  have hclause : ∀ f : Expr, (∃ parts, f.nnf true = .any parts ∧ Nnf.AllSingle names parts) →
      Keeps names (f.nnf true).formula := by
    rintro f ⟨parts, hnnf, hparts⟩
    rw [hnnf, Nnf.formula]
    exact (keeps_allDisjuncts parts hparts).bind fun _ => keeps_clause _
  generalize e.unlabeled = f at hfits hnone
  cases f with
  | int name own => cases hnone
  | linear terms op rhs => exact keeps_demand hfits op rhs
  | allDifferent xs => exact keeps_allDifferent hfits
  | not f => exact hclause _ hfits
  | and es => exact hclause _ hfits
  | or es => exact hclause _ hfits
  | imp f g => exact hclause _ hfits
  | labeled label f => exact hclause _ hfits

/-- Below the labels of a declaration is a declaration. -/
theorem exists_unlabeled_of_declares? {e : Expr} {name : String} (h : e.declares? = some name) :
    ∃ own, e.unlabeled = .int name own := by
  unfold Expr.declares? at h
  split at h
  · next name' own heq =>
    cases h
    exact ⟨own, heq⟩
  · cases h

/-- What fits a declaration. -/
theorem fits_declaration {e : Expr} {name : String} (h : e.declares? = some name)
    (hfits : e.Fits values names) :
    compile e = declare name (values name) ∧ values name ≠ [] := by
  obtain ⟨own, hun⟩ := exists_unlabeled_of_declares? h
  unfold Expr.Fits at hfits
  rw [hun] at hfits
  obtain ⟨rfl, hne⟩ := hfits
  exact ⟨by rw [compile_nnf, hun], hne⟩

/-- **Expressions.** One that fits compiles, or fails by an encoding. -/
theorem compile_error_of_fits {e : Expr} {cause : CompileError} (hfits : e.Fits values names)
    (hnames : Encoded names t) (ht : Agrees values t)
    (h : compile e t = .error (.error cause) u) : ∃ c, cause = .encoding c := by
  cases hdecl : e.declares? with
  | none => exact (keeps_compile hfits hdecl).error hnames h
  | some name =>
    obtain ⟨hcompile, hne⟩ := fits_declaration hdecl hfits
    rw [hcompile] at h
    exact declare_error ht hne h

/-- An expression that fits declares its name, with its values. -/
theorem compile_ok_of_fits {e : Expr} {x : Unit} (hfits : e.Fits values names)
    (hnames : Encoded names t) (ht : Agrees values t) (h : compile e t = .ok x u) :
    Encoded (names ++ e.declares?.toList) u ∧ Agrees values u := by
  cases hdecl : e.declares? with
  | none =>
    have hvars := (keeps_compile hfits hdecl).ok hnames h
    unfold Encoded Agrees
    rw [hvars, Option.toList_none, List.append_nil]
    exact ⟨hnames, ht⟩
  | some name =>
    obtain ⟨hcompile, -⟩ := fits_declaration hdecl hfits
    rw [hcompile] at h
    rcases declare_eq_ok h with ⟨y, hy, -, rfl⟩ | ⟨-, y, cnf, henc, rfl⟩
    · refine ⟨List.forall_mem_append.2 ⟨hnames, ?_⟩, ht⟩
      simpa using ⟨y, hy⟩
    · refine ⟨List.forall_mem_append.2 ⟨fun n hn => List.mem_cons_of_mem _ (hnames n hn), by simp⟩,
        List.forall_mem_cons.2 ⟨values_encode henc, ht⟩⟩

end Compiler

/-! ### Sessions -/

/-- The error is not one of the expressions: an encoding failed, or the backend refused a clause or
could not answer. -/
inductive SessionError.External : SessionError → Prop
  | encoding (text : String) (cause : EncodingError) : External (.compile text (.encoding cause))
  | refused (message : String) : External (.refused message)
  | backend (message : String) : External (.backend message)

namespace Session

open Compiler

variable {σ : Type} {values : String → List Int} {names : List String}

/-- Expressions that are accepted can fail at an encoding only. -/
theorem compileAll_error_of_accepts {es : List Expr} {t u : Tables} {e : SessionError}
    (hes : Expr.Accepts values names es) (hnames : Encoded names t) (ht : Agrees values t)
    (h : compileAll es t = .error (.error e) u) :
    ∃ text cause, e = .compile text (.encoding cause) := by
  induction es generalizing names t with
  | nil => exact absurd h (by simp [compileAll])
  | cons f es ih =>
    rcases compileAll_cons_eq_error h with ⟨text, cause, w, hf, -, rfl⟩ | ⟨t₁, hf, hrest⟩
    · obtain ⟨c, rfl⟩ := compile_error_of_fits hes.1 hnames ht hf
      exact ⟨text, c, rfl⟩
    · obtain ⟨hnames', ht'⟩ := compile_ok_of_fits hes.1 hnames ht hf
      exact ih hes.2 hnames' ht' hrest

/-- Expressions that are accepted declare their names, with their values. -/
theorem compileAll_ok_of_accepts {es : List Expr} {t u : Tables} {x : Unit}
    (hes : Expr.Accepts values names es) (hnames : Encoded names t) (ht : Agrees values t)
    (h : compileAll es t = .ok x u) :
    Encoded (names ++ Expr.declaredBy es) u ∧ Agrees values u := by
  induction es generalizing names t with
  | nil =>
    cases h
    simpa [Expr.declaredBy] using ⟨hnames, ht⟩
  | cons f es ih =>
    obtain ⟨y, t₁, hf, hrest⟩ := compileAll_cons_eq_ok h
    obtain ⟨hnames', ht'⟩ := compile_ok_of_fits hes.1 hnames ht hf
    rw [Expr.declaredBy_cons, ← List.append_assoc]
    exact ih hes.2 hnames' ht' hrest

/-- The queue of the session is accepted, and the names are declared once it is compiled. -/
structure Ready (values : String → List Int) (names : List String) (s : Session σ) : Prop where
  /-- Every declared variable is over the values of its name. -/
  agrees : Agrees values s.tables
  /-- The queue is accepted. -/
  accepts : Expr.Accepts values (s.vars.map (·.1)) s.pending
  /-- The names are declared, or wait to be declared. -/
  declared : names ⊆ s.vars.map (·.1) ++ Expr.declaredBy s.pending

/-- A session begins without names. -/
theorem ready_start {b : Backend σ} {s₀ : σ} {s : Session σ} (h : start b s₀ = .ok s) :
    Ready values [] s := by
  obtain ⟨-, rfl⟩ := start_eq_ok h
  exact ⟨by simp [Agrees, tables, fresh], trivial, by simp⟩

/-- Queueing what is accepted. -/
theorem Ready.addExprs {s : Session σ} (h : Ready values names s) {es : List Expr}
    (hes : Expr.Accepts values names es) :
    Ready values (names ++ Expr.declaredBy es) (s.addExprs es) := by
  refine ⟨h.agrees, ?_, ?_⟩
  · exact Expr.accepts_append.2 ⟨h.accepts, hes.mono h.declared⟩
  · show _ ⊆ _ ++ Expr.declaredBy (s.pending ++ es)
    rw [Expr.declaredBy_append, ← List.append_assoc]
    exact List.append_subset.2 ⟨fun n hn => List.mem_append_left _ (h.declared hn),
      List.subset_append_right _ _⟩

section Operations

variable {b : Backend σ} {s s' : Session σ}

/-- **Committing** what is accepted fails for external reasons only. -/
theorem Ready.commit_error (hs : Ready values names s) {e : SessionError}
    (h : commit b s = .error (.error e) s') : e.External := by
  rcases commit_eq_error h with ⟨-, -, t, -, hcompile, -⟩ | ⟨message, t, r, rfl, -⟩
  · obtain ⟨text, cause, rfl⟩ :=
      compileAll_error_of_accepts hs.accepts (fun n hn => hn) hs.agrees hcompile
    exact .encoding text cause
  · exact .refused message

/-- After a commit the declared names are there. -/
theorem Ready.commit_ok (hs : Ready values names s) {x : Unit} (h : commit b s = .ok x s') :
    Ready values names s' ∧ names ⊆ s'.vars.map (·.1) := by
  rcases commit_eq_ok h with ⟨hpending, rfl⟩ | ⟨t, r, hcompile, -, rfl⟩
  · refine ⟨hs, ?_⟩
    have hdeclared := hs.declared
    rwa [hpending, Expr.declaredBy, List.filterMap_nil, List.append_nil] at hdeclared
  · obtain ⟨hencoded, hagrees⟩ :=
      compileAll_ok_of_accepts hs.accepts (fun n hn => hn) hs.agrees hcompile
    have hsub : names ⊆ t.vars.map (·.1) := fun n hn => hencoded n (hs.declared hn)
    exact ⟨⟨hagrees, trivial, fun n hn => List.mem_append_left _ (hsub hn)⟩, hsub⟩

/-- **Assuming** something of a declared variable fails for external reasons only. -/
theorem Ready.assume_error (hs : Ready values names s) {name : String} (hname : name ∈ names)
    {op : Comparator} {bound : Int} {e : SessionError}
    (h : assume b name op bound s = .error (.error e) s') : e.External := by
  rcases assume_eq_error h with hcommit | ⟨hcommit, hlookup, -⟩
  · exact hs.commit_error hcommit
  · -- The batch declared every name that is in use.
    obtain ⟨p, hp, rfl⟩ := List.mem_map.1 ((hs.commit_ok hcommit).2 hname)
    have := List.lookup_eq_none_iff.1 hlookup p hp
    simp at this

/-- An assumption does not change what is declared. -/
theorem Ready.assume_ok (hs : Ready values names s) {name : String} {op : Comparator} {bound : Int}
    {x : Unit} (h : assume b name op bound s = .ok x s') : Ready values names s' := by
  obtain ⟨s₁, y, atoms, hcommit, -, -, rfl⟩ := assume_eq_ok h
  obtain ⟨hs₁, -⟩ := hs.commit_ok hcommit
  exact ⟨hs₁.agrees, hs₁.accepts, hs₁.declared⟩

/-- **Asking** fails for external reasons only. -/
theorem Ready.solve_error (hs : Ready values names s) {limit : Option Nat} {e : SessionError}
    (h : solve b limit s = .error (.error e) s') : e.External := by
  rcases solve_eq_error h with hcommit | ⟨s₁, message, -, rfl, -⟩
  · exact hs.commit_error hcommit
  · exact .backend message

/-- A question does not change what is declared. -/
theorem Ready.solve_ok (hs : Ready values names s) {limit : Option Nat} {outcome : Outcome}
    (h : solve b limit s = .ok outcome s') : Ready values names s' := by
  obtain ⟨s₁, hcommit, ⟨-, -, rfl⟩ | ⟨-, answer, -, -, rfl⟩⟩ := solve_eq_ok h
  · obtain ⟨hs₁, -⟩ := hs.commit_ok hcommit
    exact ⟨hs₁.agrees, hs₁.accepts, hs₁.declared⟩
  · obtain ⟨hs₁, -⟩ := hs.commit_ok hcommit
    exact ⟨hs₁.agrees, hs₁.accepts, hs₁.declared⟩

end Operations

end Session

/-- A solution gives a value to every declared name. -/
theorem Outcome.RightFor.get? {exprs : List Expr} {assumed : List Assumption} {sol : Solution}
    (h : Outcome.RightFor exprs assumed (.sat sol)) {name : String}
    (hname : name ∈ Expr.declaredBy exprs) : sol.get? name = some (sol.value name) := by
  obtain ⟨e, he, hdecl⟩ := Expr.mem_declaredBy.1 hname
  obtain ⟨own, hun⟩ := Compiler.exists_unlabeled_of_declares? hdecl
  obtain ⟨k, -, hget⟩ := h.1 e he name own hun
  rw [Solution.value, hget, Option.getD_some]

namespace Session

variable {σ : Type} {values : String → List Int} {names : List String}

/-! ### What a session stands for -/

/-- The session has compiled or queued the expressions, which are accepted, and assumes the
assumptions; the names are declared. -/
structure Stands (clauses : σ → List Clause) (values : String → List Int) (names : List String)
    (exprs : List Expr) (assumed : List Assumption) (s : Session σ) : Prop where
  /-- What is not compiled yet is queued. -/
  represents : ∃ done, exprs = done ++ s.pending ∧ Represents clauses s done assumed
  /-- The queue is accepted. -/
  ready : Ready values names s
  /-- The names are declared by the expressions. -/
  declared : names ⊆ Expr.declaredBy exprs

section Standing

variable {b : Backend σ} {clauses : σ → List Clause} {exprs : List Expr}
  {assumed : List Assumption} {s s' : Session σ}

/-- A session begins with nothing said and nothing assumed. -/
theorem stands_start (hb : b.Sound clauses) {s₀ : σ} (h₀ : clauses s₀ = [])
    (hstart : start b s₀ = .ok s) : Stands clauses values [] [] [] s := by
  refine ⟨⟨[], ?_, start_represents hb h₀ hstart⟩, ready_start hstart, List.nil_subset _⟩
  obtain ⟨-, rfl⟩ := start_eq_ok hstart
  rfl

/-- Accepted expressions are added to what has been said. -/
theorem Stands.addExprs (h : Stands clauses values names exprs assumed s) {es : List Expr}
    (hes : Expr.Accepts values names es) :
    Stands clauses values (names ++ Expr.declaredBy es) (exprs ++ es) assumed (s.addExprs es) := by
  obtain ⟨done, rfl, hdone⟩ := h.represents
  refine ⟨⟨done, List.append_assoc .., hdone.congr rfl (Nat.le_refl _) rfl rfl rfl rfl⟩,
    h.ready.addExprs hes, ?_⟩
  rw [Expr.declaredBy_append (done ++ s.pending)]
  exact List.append_subset.2 ⟨fun n hn => List.mem_append_left _ (h.declared hn),
    List.subset_append_right _ _⟩

/-- A commit changes nothing about what has been said. -/
theorem Stands.commit (hb : b.Sound clauses) (h : Stands clauses values names exprs assumed s)
    {x : Unit} (hstep : Session.commit b s = .ok x s') (hroom : s'.next ≤ Lit.varLimit) :
    Stands clauses values names exprs assumed s' := by
  obtain ⟨done, rfl, hdone⟩ := h.represents
  obtain ⟨hdone', hnone, -⟩ := commit_represents hb hdone hstep hroom
  exact ⟨⟨done ++ s.pending, by rw [hnone, List.append_nil], hdone'⟩, (h.ready.commit_ok hstep).1,
    h.declared⟩

/-- An assumption is added to what is assumed. -/
theorem Stands.assume (hb : b.Sound clauses) (h : Stands clauses values names exprs assumed s)
    {name : String} {op : Comparator} {bound : Int} {x : Unit}
    (hstep : Session.assume b name op bound s = .ok x s') (hroom : s'.next ≤ Lit.varLimit) :
    Stands clauses values names exprs (assumed ++ [⟨name, op, bound⟩]) s' := by
  obtain ⟨done, rfl, hdone⟩ := h.represents
  obtain ⟨hdone', hnone⟩ := assume_represents hb hdone hstep hroom
  exact ⟨⟨done ++ s.pending, by rw [hnone, List.append_nil], hdone'⟩, h.ready.assume_ok hstep,
    h.declared⟩

/-- A question uses the assumptions up. -/
theorem Stands.solve (hb : b.Sound clauses) (h : Stands clauses values names exprs assumed s)
    {limit : Option Nat} {outcome : Outcome} (hstep : Session.solve b limit s = .ok outcome s')
    (hroom : s'.next ≤ Lit.varLimit) :
    Stands clauses values names exprs [] s' ∧ outcome.RightFor exprs assumed := by
  obtain ⟨done, rfl, hdone⟩ := h.represents
  obtain ⟨hdone', hnone, hright⟩ := solve_represents hb hdone hstep hroom
  exact ⟨⟨⟨done ++ s.pending, by rw [hnone, List.append_nil], hdone'⟩, h.ready.solve_ok hstep,
    h.declared⟩, hright⟩

/-- A solution gives a value to every name. -/
theorem Stands.get? (h : Stands clauses values names exprs assumed s) {given : List Assumption}
    {sol : Solution} (hright : Outcome.RightFor exprs given (.sat sol)) {name : String}
    (hname : name ∈ names) : sol.get? name = some (sol.value name) :=
  hright.get? (h.declared hname)

end Standing

end Session

end WeightedCsp

import WeightedCsp.Proofs.Csp.Tables

/-!
# Compiling declarations, equalities and all-different

A declaration makes the variable show one of its values (`declare_compiles`).  The atom of an
equality is exact, whether it is made now or was made before (`equality_compiles`): this is what
`Tables.Names` keeps.  An all-different demands that for each value no two of the atoms of that
value are true; the list of these atoms mirrors the list of names (`Mirrors`), so that a name that
stands twice is never different from itself.
-/

namespace WeightedCsp

namespace Compiler

variable {α β : Type}

/-! ### Growth -/

/-- Every run of the compiler, also one that fails, grows the tables. -/
abbrev Growing (x : Compiler α) : Prop := x.Follows Tables.Grows

theorem growing_of_after_eq {x : Compiler α} (h : ∀ t, x.after t = t) : Growing x :=
  Step.follows_of_after_eq Tables.Grows.refl h

/-- Sequencing: tables that grow twice grow. -/
theorem Growing.bind {x : Compiler α} {f : α → Compiler β} (hx : Growing x)
    (hf : ∀ a, Growing (f a)) : Growing (x >>= f) :=
  Step.Follows.bind Tables.Grows.trans hx hf

theorem growing_pure (a : α) : Growing (pure a : Compiler α) :=
  growing_of_after_eq (Step.after_pure a)

theorem growing_get : Growing (get : Compiler Tables) := growing_of_after_eq Step.after_get

theorem growing_fail (e : CompileError) : Growing (Step.fail e : Compiler α) :=
  growing_of_after_eq (Step.after_fail e)

theorem growing_checked (c : Checked α) : Growing (liftM c : Compiler α) :=
  growing_of_after_eq (Step.after_checked c)

/-- An encoder that grows the clauses grows the tables. -/
theorem growing_emit {x : Encoder EncodingError α} (hx : Encoder.Growing x) :
    Growing (emit x) := by
  rintro ⟨cnf, vars, atoms, undo⟩
  have hafter : (emit x).after ⟨cnf, vars, atoms, undo⟩ = ⟨x.after cnf, vars, atoms, undo⟩ := by
    cases h : x cnf with
    | ok a cnf' => simp only [Step.after, emit, h]
    | error e cnf' => simp only [Step.after, emit, h]
  rw [hafter]
  exact ⟨hx cnf, List.suffix_refl _, List.suffix_refl _⟩

/-- A look-up changes nothing. -/
theorem growing_lookup (name : String) : Growing (lookup name) := by
  refine growing_of_after_eq fun t => ?_
  unfold Step.after lookup
  cases t.vars.lookup name <;> rfl

/-- Entering a variable takes nothing back. -/
theorem growing_addVariable (name : String) (x : OrderVar) : Growing (addVariable name x) :=
  fun _ => ⟨.refl _, List.suffix_cons _ _, List.suffix_refl _⟩

/-- Entering an atom takes nothing back. -/
theorem growing_addAtom (name : String) (k : Int) (a : Atom) : Growing (addAtom name k a) :=
  fun _ => ⟨.refl _, List.suffix_refl _, List.suffix_cons _ _⟩

theorem growing_clause (atoms : List Atom) : Growing (clause atoms) :=
  growing_emit (Atom.growing_addClause atoms)

theorem growing_clauses : ∀ cs : List (List Atom), Growing (clauses cs)
  | [] => growing_pure _
  | c :: cs => (growing_clause c).bind fun _ => growing_clauses cs

/-- A declaration takes nothing back. -/
theorem growing_declare (name : String) (values : List Int) : Growing (declare name values) := by
  unfold declare
  simp only
  split_ifs
  · exact growing_fail (.emptyDomain name)
  · refine growing_get.bind fun t => ?_
    split
    · split_ifs
      · exact growing_fail _
      · exact growing_pure _
    · exact (growing_emit (OrderVar.growing_encode _)).bind fun x => growing_addVariable name x

/-- An equality takes nothing back. -/
theorem growing_equality (name : String) (k : Int) : Growing (equality name k) := by
  refine growing_get.bind fun t => ?_
  split
  · exact growing_pure _
  · exact (growing_lookup name).bind fun x =>
      (growing_emit (OrderVar.growing_eqAtom x k)).bind fun a =>
        (growing_addAtom name k a).bind fun _ => growing_pure a

theorem growing_equalities (name : String) : ∀ ks : List Int, Growing (equalities name ks)
  | [] => growing_pure _
  | k :: ks => (growing_equality name k).bind fun _ =>
      (growing_equalities name ks).bind fun _ => growing_pure _

theorem growing_allEqualities : ∀ names : List String, Growing (allEqualities names)
  | [] => growing_pure _
  | name :: names => (growing_lookup name).bind fun _ => (growing_equalities name _).bind fun _ =>
      (growing_allEqualities names).bind fun _ => growing_pure _

/-- A demand of different values takes nothing back. -/
theorem growing_allDifferent (names : List String) : Growing (allDifferent names) :=
  (growing_allEqualities names).bind fun _ => growing_clauses _

/-! ### The steps that touch the tables -/

variable {t u : Tables}

/-- What an encoder gives inside the compiler it gives on the clauses alone. -/
theorem emit_eq_ok {x : Encoder EncodingError α} {a : α} (h : emit x t = .ok a u) :
    ∃ cnf, x t.cnf = .ok a cnf ∧ u = { t with cnf := cnf } := by
  obtain ⟨cnf, vars, atoms, undo⟩ := t
  cases hx : x cnf with
  | ok b cnf' =>
    simp only [emit, hx] at h
    cases h
    exact ⟨cnf', rfl, rfl⟩
  | error e cnf' =>
    simp only [emit, hx] at h
    cases h

/-- A name that is found has an entry. -/
theorem lookup_eq_ok {name : String} {x : OrderVar} (h : lookup name t = .ok x u) :
    (name, x) ∈ t.vars ∧ u = t := by
  unfold lookup at h
  split at h
  · next y hy =>
    cases h
    exact ⟨Tables.mem_of_lookup hy, rfl⟩
  · cases h

/-- A disjunction of atoms is demanded. -/
theorem clause_compiles {atoms : List Atom} {x : Unit} (h : clause atoms t = .ok x u)
    (ht : t.WellFormed) (hin : ∀ a ∈ atoms, a.Below t.cnf.next) (value : String → Int) :
    Compiles value t u (fun v => ∃ a ∈ atoms, a.eval v) (fun v => ∃ a ∈ atoms, a.eval v)
      fun _ => True := by
  obtain ⟨cnf, hx, rfl⟩ := emit_eq_ok h
  refine .of_encodes ht ((Atom.addClause_encodes hx hin).mono ?_ ?_ ?_)
  · exact fun v hv _ => hv
  · exact fun v hv => hv.2
  · exact fun v _ => trivial

/-- A disjunction of atoms hangs on their variables. -/
theorem stable_someEval {n : Nat} {atoms : List Atom} (h : ∀ a ∈ atoms, a.Below n) :
    StableBelow n fun v => ∃ a ∈ atoms, a.eval v := by
  rintro v w hvw ⟨a, ha, heval⟩
  exact ⟨a, ha, by rwa [(h a ha).eval_eq hvw]⟩

/-- A conjunction of atoms hangs on their variables. -/
theorem stable_allEval {n : Nat} {atoms : List Atom} (h : ∀ a ∈ atoms, a.Below n) :
    StableBelow n fun v => ∀ a ∈ atoms, a.eval v := by
  intro v w hvw hall a ha
  rw [(h a ha).eval_eq hvw]
  exact hall a ha

/-- Several disjunctions are demanded together. -/
theorem clauses_compiles {cs : List (List Atom)} {x : Unit} (h : clauses cs t = .ok x u)
    (ht : t.WellFormed) (hin : ∀ c ∈ cs, ∀ a ∈ c, a.Below t.cnf.next) (value : String → Int) :
    Compiles value t u (fun v => ∀ c ∈ cs, ∃ a ∈ c, a.eval v)
      (fun v => ∀ c ∈ cs, ∃ a ∈ c, a.eval v) fun _ => True := by
  induction cs generalizing t with
  | nil =>
    obtain ⟨-, rfl⟩ := Step.pure_eq_ok.1 h
    exact .refl ht (fun _ _ _ => by simp) fun _ _ _ _ => trivial
  | cons c cs ih =>
    obtain ⟨x, t₁, hc, hcs⟩ := Step.bind_eq_ok.1 h
    have hle := ((growing_clause c).ok hc).cnf.next_le
    have hrest : StableBelow t.cnf.next fun v => ∀ d ∈ cs, ∃ a ∈ d, a.eval v := by
      intro v w hvw hall d hd
      exact stable_someEval (hin d (List.mem_cons_of_mem _ hd)) v w hvw (hall d hd)
    have h₁ := (clause_compiles hc ht (hin c (by simp)) value).frame hrest
    have h₂ := ih hcs h₁.wellFormed fun d hd a ha =>
      (hin d (List.mem_cons_of_mem _ hd) a ha).mono hle
    refine (h₁.trans h₂ (fun v hv => hv.2) ?_).mono ?_ ?_ fun _ _ _ => trivial
    · exact fun v w hvw hv => ⟨trivial, hrest v w (hvw.mono hle) hv.2⟩
    · exact fun v _ hv => List.forall_mem_cons.2 hv
    · exact fun v _ hv => List.forall_mem_cons.1 hv

/-! ### Declarations -/

/-- What a declaration does: it finds the same values under the name, or enters a new variable. -/
theorem declare_eq_ok {name : String} {values : List Int} {x : Unit}
    (h : declare name values t = .ok x u) :
    (∃ y, (name, y) ∈ t.vars ∧ y.values = Ascending.ofList values ∧ u = t) ∨
      t.vars.lookup name = none ∧ ∃ y cnf,
        (OrderVar.encode (Ascending.ofList values) : Encoder EncodingError OrderVar) t.cnf =
          .ok y cnf ∧ u = { t with
            cnf := cnf
            vars := (name, y) :: t.vars
            undo := { t.undo with vars := t.undo.vars ++ [name] } } := by
  unfold declare at h
  simp only at h
  split_ifs at h with hempty
  · obtain ⟨a, t₁, hfail, -⟩ := Step.bind_eq_ok.1 h
    exact absurd hfail (by simp)
  · obtain ⟨s, t₁, hget, h₁⟩ := Step.bind_eq_ok.1 h
    obtain ⟨rfl, rfl⟩ := Step.get_eq_ok.1 hget
    cases hlookup : t.vars.lookup name with
    | some y =>
      simp only [hlookup] at h₁
      split_ifs at h₁ with hvalues
      · exact absurd h₁ (by simp)
      · obtain ⟨-, rfl⟩ := Step.pure_eq_ok.1 h₁
        exact .inl ⟨y, Tables.mem_of_lookup hlookup, not_not.1 hvalues, rfl⟩
    | none =>
      simp only [hlookup] at h₁
      obtain ⟨y, t₂, hemit, hadd⟩ := Step.bind_eq_ok.1 h₁
      obtain ⟨cnf, henc, rfl⟩ := emit_eq_ok hemit
      cases hadd
      exact .inr ⟨rfl, y, cnf, henc, rfl⟩

/-- **Declarations.** The variable takes one of its values, and it may take each of them. -/
theorem declare_compiles {name : String} {values : List Int} {x : Unit}
    (h : declare name values t = .ok x u) (ht : t.WellFormed)
    (hroom : u.cnf.next ≤ Lit.varLimit) (value : String → Int) :
    Compiles value t u (fun _ => value name ∈ values) (fun _ => value name ∈ values)
      fun _ => True := by
  rcases declare_eq_ok h with ⟨y, hy, hvalues, rfl⟩ | ⟨hnone, y, cnf, henc, rfl⟩
  · -- The variable is declared already, with the same values.
    refine .refl ht (fun v hshows _ => ?_) fun _ _ _ _ => trivial
    have hmem := (hshows _ hy).mem
    rwa [hvalues, Ascending.mem_ofList] at hmem
  obtain ⟨hvalues, hwf, hencodes⟩ :=
    OrderVar.encode_encodes (Ascending.pairwise_ofList values) henc hroom
  have hg : t.cnf.Grows cnf := (OrderVar.growing_encode _).ok henc
  have hfresh : name ∉ t.vars.map (·.1) := by
    intro hmem
    obtain ⟨p, hp, rfl⟩ := List.mem_map.1 hmem
    have := List.lookup_eq_none_iff.1 hnone p hp
    simp at this
  have hold := ht.mono cnf hg.next_le
  refine ⟨⟨hg, List.suffix_cons _ _, List.suffix_refl _⟩,
    ⟨List.forall_mem_cons.2 ⟨hwf, hold.vars⟩, ?_, hold.atoms⟩, ?_⟩
  · exact List.nodup_cons.2 ⟨hfresh, ht.names⟩
  refine ((hencodes (value name)).frame
    ((ht.stable_shows value).and (ht.stable_names value))).mono ?_ ?_ ?_
  · intro v hstair
    refine ⟨fun hstairs => List.forall_mem_cons.2 ⟨hstair, hstairs⟩, fun hshows hnames =>
      ⟨hnames, ?_⟩⟩
    have hmem := (hshows (name, y) (by simp)).mem
    rwa [hvalues, Ascending.mem_ofList] at hmem
  · rintro v ⟨hshows, hnames, hmem⟩
    exact ⟨(Ascending.mem_ofList _ _).2 hmem, hshows, hnames⟩
  · rintro v ⟨hshow, hshows, hnames⟩
    exact ⟨List.forall_mem_cons.2 ⟨hshow, hshows⟩, hnames, trivial⟩

/-! ### Equalities -/

/-- What an equality does: it finds its atom, or makes one for a declared variable. -/
theorem equality_eq_ok {name : String} {k : Int} {a : Atom} (h : equality name k t = .ok a u) :
    ((name, k), a) ∈ t.atoms ∧ u = t ∨
      ∃ x cnf, (name, x) ∈ t.vars ∧ (x.eqAtom k : Encoder EncodingError Atom) t.cnf = .ok a cnf ∧
        u = { t with
          cnf := cnf
          atoms := ((name, k), a) :: t.atoms
          undo := { t.undo with atoms := t.undo.atoms ++ [(name, k)] } } := by
  obtain ⟨s, t₁, hget, h₁⟩ := Step.bind_eq_ok.1 h
  obtain ⟨rfl, rfl⟩ := Step.get_eq_ok.1 hget
  cases hlookup : t.atoms.lookup (name, k) with
  | some b =>
    simp only [hlookup] at h₁
    obtain ⟨rfl, rfl⟩ := Step.pure_eq_ok.1 h₁
    exact .inl ⟨Tables.mem_of_lookup_atom hlookup, rfl⟩
  | none =>
    simp only [hlookup] at h₁
    obtain ⟨x, t₂, hx, h₂⟩ := Step.bind_eq_ok.1 h₁
    obtain ⟨hmem, rfl⟩ := lookup_eq_ok hx
    obtain ⟨b, t₃, hemit, h₃⟩ := Step.bind_eq_ok.1 h₂
    obtain ⟨cnf, heq, rfl⟩ := emit_eq_ok hemit
    obtain ⟨y, t₄, hadd, h₄⟩ := Step.bind_eq_ok.1 h₃
    cases hadd
    obtain ⟨rfl, rfl⟩ := Step.pure_eq_ok.1 h₄
    exact .inr ⟨x, cnf, hmem, heq, rfl⟩

/-- **Equalities.** The atom is true exactly when the variable takes the value. -/
theorem equality_compiles {name : String} {k : Int} {a : Atom} (h : equality name k t = .ok a u)
    (ht : t.WellFormed) (hroom : u.cnf.next ≤ Lit.varLimit) :
    a.Below u.cnf.next ∧ ∀ value, Compiles value t u (fun v => a.eval v ↔ value name = k)
      (fun _ => True) fun w => a.eval w ↔ value name = k := by
  rcases equality_eq_ok h with ⟨hmem, rfl⟩ | ⟨x, cnf, hx, heq, rfl⟩
  · -- The atom was made before, and the tables know what it means.
    refine ⟨ht.atoms _ hmem, fun value => .refl ht ?_ ?_⟩
    · exact fun v _ hnames => hnames _ hmem
    · exact fun v _ hnames _ => hnames _ hmem
  obtain ⟨hbelow, hencodes⟩ := OrderVar.eqAtom_encodes heq (ht.vars _ hx) hroom
  have hg : t.cnf.Grows cnf := (OrderVar.growing_eqAtom x k).ok heq
  have hold := ht.mono cnf hg.next_le
  refine ⟨hbelow, fun value => ⟨⟨hg, List.suffix_refl _, List.suffix_cons _ _⟩,
    ⟨hold.vars, hold.names, List.forall_mem_cons.2 ⟨hbelow, hold.atoms⟩⟩, ?_⟩⟩
  refine ((hencodes (value name)).frame
    ((ht.stable_shows value).and (ht.stable_names value))).mono ?_ ?_ ?_
  · intro v hv
    refine ⟨id, fun hshows hnames => ?_⟩
    have heval : a.eval v ↔ value name = k := by simp [hv (hshows _ hx)]
    exact ⟨List.forall_mem_cons.2 ⟨heval, hnames⟩, heval⟩
  · rintro v ⟨hshows, hnames, -⟩
    exact ⟨hshows _ hx, hshows, hnames⟩
  · rintro v ⟨hv, hshows, hnames⟩
    have heval : a.eval v ↔ value name = k := by simp [hv]
    exact ⟨hshows, List.forall_mem_cons.2 ⟨heval, hnames⟩, heval⟩

/-- The atoms of several equalities stand for them, in order. -/
theorem equalities_compiles {name : String} {ks : List Int} {atoms : List (Int × Atom)}
    (h : equalities name ks t = .ok atoms u) (ht : t.WellFormed)
    (hroom : u.cnf.next ≤ Lit.varLimit) :
    u.WellFormed ∧ atoms.map (·.1) = ks ∧ (∀ p ∈ atoms, p.2.Below u.cnf.next) ∧
      ∀ value, Compiles value t u (fun v => ∀ p ∈ atoms, p.2.eval v ↔ value name = p.1)
        (fun _ => True) fun w => ∀ p ∈ atoms, p.2.eval w ↔ value name = p.1 := by
  induction ks generalizing t atoms with
  | nil =>
    obtain ⟨rfl, rfl⟩ := Step.pure_eq_ok.1 h
    refine ⟨ht, rfl, by simp, fun value => .refl ht ?_ ?_⟩
    · exact fun _ _ _ => by simp
    · exact fun _ _ _ _ => by simp
  | cons k ks ih =>
    obtain ⟨a, t₁, ha, h₁⟩ := Step.bind_eq_ok.1 h
    obtain ⟨rest, t₂, hrest, h₂⟩ := Step.bind_eq_ok.1 h₁
    obtain ⟨rfl, rfl⟩ := Step.pure_eq_ok.1 h₂
    have hle := ((growing_equalities name ks).ok hrest).cnf.next_le
    obtain ⟨hbelow, hcomp⟩ := equality_compiles ha ht (hle.trans hroom)
    obtain ⟨hu, hkeys, hbelows, hcomps⟩ := ih hrest (hcomp fun _ => 0).wellFormed
    refine ⟨hu, by simp [hkeys], List.forall_mem_cons.2 ⟨hbelow.mono hle, hbelows⟩,
      fun value => ?_⟩
    refine ((hcomp value).trans (hcomps value) (fun _ _ => trivial) ?_).mono ?_ ?_ ?_
    · intro v w hvw hv
      rwa [hbelow.eval_eq hvw]
    · exact fun v _ hv => List.forall_mem_cons.2 hv
    · exact fun v _ _ => trivial
    · exact fun v _ hv => List.forall_mem_cons.2 hv

/-! ### All-different -/

/-- No two of the atoms of one value are true. -/
def Exclusive (v : Valuation) (atoms : List (Int × Atom)) : Prop :=
  atoms.Pairwise fun p q => p.1 = q.1 → ¬ (p.2.eval v ∧ q.2.eval v)

/-- The atoms tell which values are taken, and by how many of the names. -/
structure Mirrors (value : String → Int) (v : Valuation) (names : List String)
    (atoms : List (Int × Atom)) : Prop where
  /-- A value has a true atom exactly when one of the names takes it. -/
  taken : ∀ k, (∃ p ∈ atoms, p.1 = k ∧ p.2.eval v) ↔ ∃ x ∈ names, value x = k
  /-- No value has two true atoms exactly when no two of the names take the same. -/
  exclusive : Exclusive v atoms ↔ names.Pairwise fun x y => value x ≠ value y

/-- What atoms mirror hangs on their variables. -/
theorem Mirrors.stable {value : String → Int} {n : Nat} {names : List String}
    {atoms : List (Int × Atom)} (h : ∀ p ∈ atoms, p.2.Below n) :
    StableBelow n (Mirrors value · names atoms) := by
  intro v w hvw hv
  have heval : ∀ p ∈ atoms, p.2.eval w = p.2.eval v := fun p hp => (h p hp).eval_eq hvw
  refine ⟨fun k => ?_, ?_⟩
  · rw [← hv.taken k]
    constructor
    · rintro ⟨p, hp, hk, ht⟩
      exact ⟨p, hp, hk, by rwa [← heval p hp]⟩
    · rintro ⟨p, hp, hk, ht⟩
      exact ⟨p, hp, hk, by rwa [heval p hp]⟩
  · rw [← hv.exclusive]
    refine List.Pairwise.iff_of_mem fun {p q} hp hq => ?_
    rw [heval p hp, heval q hq]

/-- The atoms of one more variable, for each of its values. -/
theorem Mirrors.append {value : String → Int} {v : Valuation} {name : String} {x : OrderVar}
    {n : Nat} (hx : x.WellFormed n) (hshow : x.Shows v (value name)) {own : List (Int × Atom)}
    (hkeys : own.map (·.1) = x.values) (hown : ∀ p ∈ own, p.2.eval v ↔ value name = p.1)
    {names : List String} {rest : List (Int × Atom)} (hrest : Mirrors value v names rest) :
    Mirrors value v (name :: names) (own ++ rest) := by
  have hmine : ∀ k, (∃ p ∈ own, p.1 = k ∧ p.2.eval v) ↔ value name = k := by
    intro k
    constructor
    · rintro ⟨p, hp, rfl, heval⟩
      exact (hown p hp).1 heval
    · rintro rfl
      have hmem := hshow.mem
      rw [← hkeys] at hmem
      obtain ⟨p, hp, hk⟩ := List.mem_map.1 hmem
      exact ⟨p, hp, hk, (hown p hp).2 hk.symm⟩
  -- One variable cannot take two values, so its own atoms exclude each other.
  have hself : Exclusive v own := by
    have hnodup : (own.map (·.1)).Nodup := by
      rw [hkeys]
      exact hx.ascending.imp fun hlt => ne_of_lt hlt
    refine (List.pairwise_map.1 hnodup).imp fun hne heq => absurd heq hne
  refine ⟨fun k => ?_, ?_⟩
  · simp only [List.mem_append, List.mem_cons, or_and_right, exists_or, exists_eq_left,
      ← hrest.taken k, ← hmine k]
  · unfold Exclusive
    rw [List.pairwise_append, List.pairwise_cons, ← hrest.exclusive]
    constructor
    · rintro ⟨-, hexcl, hcross⟩
      refine ⟨fun y hy heq => ?_, hexcl⟩
      obtain ⟨p, hp, hk, heval⟩ := (hmine (value name)).2 rfl
      obtain ⟨q, hq, hk', heval'⟩ := (hrest.taken (value name)).2 ⟨y, hy, heq.symm⟩
      exact hcross p hp q hq (hk.trans hk'.symm) ⟨heval, heval'⟩
    · rintro ⟨hne, hexcl⟩
      refine ⟨hself, hexcl, fun p hp q hq hkey ⟨heval, heval'⟩ => ?_⟩
      obtain ⟨y, hy, hval⟩ := (hrest.taken q.1).1 ⟨q, hq, rfl, heval'⟩
      refine hne y hy ?_
      rw [hval, (hown p hp).1 heval, hkey]

/-- The atoms of all equalities of the given names mirror the values. -/
theorem allEqualities_compiles {names : List String} {atoms : List (Int × Atom)}
    (h : allEqualities names t = .ok atoms u) (ht : t.WellFormed)
    (hroom : u.cnf.next ≤ Lit.varLimit) :
    u.WellFormed ∧ (∀ p ∈ atoms, p.2.Below u.cnf.next) ∧
      ∀ value, Compiles value t u (Mirrors value · names atoms) (fun _ => True)
        (Mirrors value · names atoms) := by
  induction names generalizing t atoms with
  | nil =>
    obtain ⟨rfl, rfl⟩ := Step.pure_eq_ok.1 h
    have hnil : ∀ value v, Mirrors value v [] [] := fun value v => ⟨by simp, by simp [Exclusive]⟩
    exact ⟨ht, by simp, fun value => .refl ht (fun v _ _ => hnil value v)
      fun v _ _ _ => hnil value v⟩
  | cons name names ih =>
    obtain ⟨x, t₀, hx, h₀⟩ := Step.bind_eq_ok.1 h
    obtain ⟨hmem, rfl⟩ := lookup_eq_ok hx
    obtain ⟨own, t₁, hown, h₁⟩ := Step.bind_eq_ok.1 h₀
    obtain ⟨rest, t₂, hrest, h₂⟩ := Step.bind_eq_ok.1 h₁
    obtain ⟨rfl, rfl⟩ := Step.pure_eq_ok.1 h₂
    have hg := (growing_allEqualities names).ok hrest
    have hle := hg.cnf.next_le
    obtain ⟨ht₁, hkeys, hbelow, hcomp⟩ := equalities_compiles hown ht (hle.trans hroom)
    obtain ⟨hu, hbelows, hcomps⟩ := ih hrest ht₁
    have hmem₁ : (name, x) ∈ t₂.vars := hg.vars.subset ((hcomp fun _ => 0).grows.vars.subset hmem)
    refine ⟨hu, List.forall_mem_append.2 ⟨fun p hp => (hbelow p hp).mono hle, hbelows⟩,
      fun value => ?_⟩
    refine ((hcomp value).trans (hcomps value) (fun _ _ => trivial) ?_).mono ?_ ?_ ?_
    · intro v w hvw hv p hp
      rw [(hbelow p hp).eval_eq hvw]
      exact hv p hp
    · exact fun v hshows hv => hv.2.append (hu.vars _ hmem₁) (hshows _ hmem₁) hkeys hv.1
    · exact fun v _ _ => trivial
    · exact fun v hshows hv => hv.2.append (hu.vars _ hmem₁) (hshows _ hmem₁) hkeys hv.1

/-- The clauses say that of any two atoms at most one is true. -/
theorem atMostOne_iff {v : Valuation} {atoms : List Atom} :
    (∀ c ∈ atMostOne atoms, ∃ a ∈ c, a.eval v) ↔
      atoms.Pairwise fun a b => ¬ (a.eval v ∧ b.eval v) := by
  induction atoms with
  | nil => simp [atMostOne]
  | cons a atoms ih =>
    rw [atMostOne, List.forall_mem_append, ih, List.pairwise_cons]
    refine and_congr_left fun _ => ?_
    rw [List.forall_mem_map]
    refine forall₂_congr fun b _ => ?_
    simp only [List.mem_cons, List.not_mem_nil, or_false, exists_eq_or_imp, exists_eq_left,
      Atom.eval_not]
    cases a.eval v <;> simp

/-- The clauses speak of the given atoms only. -/
theorem below_atMostOne {n : Nat} {atoms : List Atom} (h : ∀ a ∈ atoms, a.Below n) :
    ∀ c ∈ atMostOne atoms, ∀ a ∈ c, a.Below n := by
  induction atoms with
  | nil => simp [atMostOne]
  | cons a atoms ih =>
    obtain ⟨ha, hatoms⟩ := List.forall_mem_cons.1 h
    rw [atMostOne, List.forall_mem_append]
    refine ⟨?_, ih hatoms⟩
    intro c hc b hb
    obtain ⟨d, hd, rfl⟩ := List.mem_map.1 hc
    rcases List.mem_cons.1 hb with rfl | hb
    · exact ha.not
    · rw [List.mem_singleton.1 hb]
      exact (hatoms d hd).not

/-- Taking the atoms value by value loses no pair. -/
theorem exclusive_iff {v : Valuation} {atoms : List (Int × Atom)} :
    (∀ k ∈ Ascending.ofList (atoms.map (·.1)),
      (atomsOf k atoms).Pairwise fun a b => ¬ (a.eval v ∧ b.eval v)) ↔ Exclusive v atoms := by
  simp only [Ascending.mem_ofList, atomsOf, List.pairwise_map, List.pairwise_filter,
    decide_eq_true_eq, Exclusive]
  constructor
  · intro h
    rw [List.pairwise_iff_getElem]
    intro i j hi hj hij hkey
    exact List.pairwise_iff_getElem.1 (h _ (List.mem_map_of_mem (List.getElem_mem hi))) i j hi hj
      hij rfl hkey.symm
  · intro h k _
    exact h.imp fun hpq hp hq => hpq (hp.trans hq.symm)

/-- **All-different.** No two of the names take the same value. -/
theorem allDifferent_compiles {names : List String} {x : Unit}
    (h : allDifferent names t = .ok x u) (ht : t.WellFormed)
    (hroom : u.cnf.next ≤ Lit.varLimit) (value : String → Int) :
    Compiles value t u (fun _ => names.Pairwise fun x y => value x ≠ value y)
      (fun _ => names.Pairwise fun x y => value x ≠ value y) fun _ => True := by
  obtain ⟨atoms, t₁, hatoms, hclauses⟩ := Step.bind_eq_ok.1 h
  have hle := ((growing_clauses _).ok hclauses).cnf.next_le
  obtain ⟨ht₁, hbelow, hcomp⟩ := allEqualities_compiles hatoms ht (hle.trans hroom)
  have hbelow' : ∀ c ∈ (Ascending.ofList (atoms.map (·.1))).flatMap fun k =>
      atMostOne (atomsOf k atoms), ∀ a ∈ c, a.Below t₁.cnf.next := by
    intro c hc
    obtain ⟨k, -, hc⟩ := List.mem_flatMap.1 hc
    refine below_atMostOne (fun a ha => ?_) c hc
    obtain ⟨p, hp, rfl⟩ := List.mem_map.1 ha
    exact hbelow p (List.mem_filter.1 hp).1
  -- The clauses say that no two atoms of one value are true.
  have hmeans : ∀ v, Mirrors value v names atoms →
      ((∀ c ∈ (Ascending.ofList (atoms.map (·.1))).flatMap fun k => atMostOne (atomsOf k atoms),
        ∃ a ∈ c, a.eval v) ↔ names.Pairwise fun x y => value x ≠ value y) := by
    intro v hv
    rw [← hv.exclusive, ← exclusive_iff, List.forall_mem_flatMap]
    exact forall₂_congr fun k _ => atMostOne_iff
  have h₁ := (hcomp value).frame (f := fun _ => names.Pairwise fun x y => value x ≠ value y)
    fun _ _ _ hp => hp
  refine (h₁.trans (clauses_compiles hclauses ht₁ hbelow' value) ?_ ?_).mono ?_ ?_ ?_
  · exact fun v hv => (hmeans v hv.1).2 hv.2
  · exact fun v w hvw hv => ⟨Mirrors.stable hbelow v w hvw hv.1, hv.2⟩
  · exact fun v _ hv => (hmeans v hv.1).1 hv.2
  · exact fun v _ hv => ⟨trivial, hv⟩
  · exact fun v _ _ => trivial

end Compiler

end WeightedCsp

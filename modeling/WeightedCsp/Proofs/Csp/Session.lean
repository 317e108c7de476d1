import WeightedCsp.Proofs.Csp.Batch

/-!
# What a session knows

`Session.Represents` ties a session to the expressions it has compiled and the assumptions it has
queued: models of the received clauses are staircases whose shown values satisfy the expressions,
and every assignment that satisfies the expressions is shown by a model.  Each operation of a
session keeps this (`commit_represents`, `assume_represents`), and with a sound backend it makes
the outcome of a question right (`solve_represents`).
-/

namespace WeightedCsp

/-! ### Maps of names -/

namespace NameMap

variable {α : Type}

/-- A name that was entered is found with its value. -/
theorem get?_insert_self (m : NameMap α) (name : String) (value : α) :
    (insert name value m).get? name = some value := by
  induction m with
  | nil => simp [insert, get?]
  | cons e rest ih =>
    obtain ⟨n, w⟩ := e
    unfold insert
    split_ifs with heq hlt
    · simp [get?]
    · simp [get?]
    · have hne : (name == n) = false := by simpa using heq
      simpa [get?, List.lookup_cons, hne] using ih

/-- Entering a name changes nothing about another one. -/
theorem get?_insert_of_ne (m : NameMap α) {name other : String} (hne : other ≠ name) (value : α) :
    (insert name value m).get? other = m.get? other := by
  have hne' : (other == name) = false := by simpa using hne
  induction m with
  | nil => simp [insert, get?, List.lookup_cons, hne']
  | cons e rest ih =>
    obtain ⟨n, w⟩ := e
    unfold insert
    split_ifs with heq hlt
    · simp [get?, List.lookup_cons, ← heq, hne']
    · simp [get?, List.lookup_cons, hne']
    · simp only [get?, List.lookup_cons] at ih ⊢
      rw [ih]

/-- After entries under different names, each name is found with its entry, or with what it had
before. -/
theorem get?_foldl_insert {entries : List (String × α)} (hnodup : (entries.map (·.1)).Nodup)
    (m : NameMap α) (name : String) :
    (entries.foldl (fun m e => insert e.1 e.2 m) m).get? name =
      (entries.lookup name).or (m.get? name) := by
  induction entries generalizing m with
  | nil => simp
  | cons e entries ih =>
    obtain ⟨n, w⟩ := e
    obtain ⟨hn, hrest⟩ := List.nodup_cons.1 hnodup
    rw [List.foldl_cons, ih hrest, List.lookup_cons]
    by_cases hname : name = n
    · have hnone : entries.lookup n = none := by
        rw [List.lookup_eq_none_iff]
        intro p hp
        have : p.1 ≠ n := fun heq => hn (List.mem_map.2 ⟨p, hp, heq⟩)
        simpa using this.symm
      simp [hname, hnone, get?_insert_self]
    · have hne : (name == n) = false := by simpa using hname
      simp [hne, get?_insert_of_ne _ hname]

/-- Entries with different names are all in the map. -/
theorem get?_ofList {entries : List (String × α)} (hnodup : (entries.map (·.1)).Nodup)
    (name : String) : (ofList entries).get? name = entries.lookup name := by
  rw [ofList, get?_foldl_insert hnodup]
  simp [get?]

/-- Where keys are distinct, an entry is found under its key. -/
theorem lookup_of_mem {entries : List (String × α)} (hnodup : (entries.map (·.1)).Nodup)
    {name : String} {value : α} (hmem : (name, value) ∈ entries) :
    entries.lookup name = some value := by
  induction entries with
  | nil => cases hmem
  | cons e entries ih =>
    obtain ⟨hn, hrest⟩ := List.nodup_cons.1 hnodup
    rcases List.mem_cons.1 hmem with rfl | hmem
    · simp
    · have hne : (name == e.1) = false := by
        rw [beq_eq_false_iff_ne]
        rintro rfl
        exact hn (List.mem_map.2 ⟨_, hmem, rfl⟩)
      rw [List.lookup_cons, hne]
      exact ih hrest hmem

end NameMap

/-- The value of a variable in a solution. -/
def Solution.value (s : Solution) (name : String) : Int := (s.get? name).getD 0

/-! ### Assumptions and outcomes -/

/-- A comparison of one variable with a constant that holds for one question. -/
structure Assumption where
  name : String
  op : Comparator
  bound : Int

/-- The assumption is true of the values. -/
def Assumption.Holds (value : String → Int) (a : Assumption) : Prop :=
  a.op.Holds (value a.name) a.bound

/-- The outcome of a question about expressions under assumptions.  A solution gives every declared
variable one of its values and satisfies everything; without a solution, no assignment does. -/
def Outcome.RightFor (exprs : List Expr) (assumed : List Assumption) : Outcome → Prop
  | .sat sol =>
    (∀ e ∈ exprs, ∀ name values, e.unlabeled = .int name values →
      ∃ k ∈ values, sol.get? name = some k) ∧
      Expr.AllHold sol.value exprs ∧ ∀ a ∈ assumed, a.Holds sol.value
  | .unsat => ¬ ∃ value, Expr.AllHold value exprs ∧ ∀ a ∈ assumed, a.Holds value
  | .interrupted => True

namespace Session

variable {σ : Type}

/-! ### The invariant -/

/-- The session has compiled the expressions and queued the assumptions. -/
structure Represents (clauses : σ → List Clause) (s : Session σ) (exprs : List Expr)
    (assumed : List Assumption) : Prop where
  /-- The tables are well formed. -/
  wellFormed : s.tables.WellFormed
  /-- What is declared is in the tables. -/
  declared : ∀ e ∈ exprs, ∀ name values, e.unlabeled = .int name values →
    name ∈ s.vars.map (·.1)
  /-- The variable of the true literal is in use. -/
  top : 0 < s.next
  /-- Clauses are over variables in use. -/
  below : ClausesBelow s.next (sent clauses (s.backend, s.contradiction))
  /-- Models show values that satisfy the expressions. -/
  sound : ∀ v : Valuation, v.Satisfies (sent clauses (s.backend, s.contradiction)) →
    v.lit topLit = true ∧ s.tables.Staircases v ∧ ∀ value, s.tables.Shows value v →
      s.tables.Names value v ∧ Expr.AllHold value exprs
  /-- Values that satisfy the expressions are shown by a model. -/
  complete : ∀ value, Expr.AllHold value exprs →
    ∃ v : Valuation, v.Satisfies (sent clauses (s.backend, s.contradiction)) ∧
      s.tables.Shows value v ∧ s.tables.Names value v
  /-- The literals that are assumed say the assumptions. -/
  assumptions : ∀ value v, v.lit topLit = true → s.tables.Shows value v →
    ((∀ l ∈ s.assumptions, v.lit l = true) ↔ ∀ a ∈ assumed, a.Holds value)

/-- A session that can be opened is fresh, on a backend that has received the true literal. -/
theorem start_eq_ok {b : Backend σ} {s₀ : σ} {s : Session σ} (h : start b s₀ = .ok s) :
    (b.add s₀ [topLit]).1 = .ok () ∧ s = fresh (b.add s₀ [topLit]).2 := by
  unfold start at h
  split at h
  · next u t hadd =>
    cases h
    rw [hadd]
    exact ⟨rfl, rfl⟩
  · cases h

/-- Where no clause is refused, a session can be opened. -/
theorem exists_start {b : Backend σ} (hb : b.Accepting) (s₀ : σ) : ∃ s, start b s₀ = .ok s := by
  unfold start
  split
  · exact ⟨_, rfl⟩
  · next message t hadd =>
    have hok := hb s₀ [topLit]
    rw [hadd] at hok
    cases hok

/-- A new session knows the true literal, and nothing is asked of it. -/
theorem start_represents {b : Backend σ} {clauses : σ → List Clause} (hb : b.Sound clauses)
    {s₀ : σ} (h₀ : clauses s₀ = []) {s : Session σ} (h : start b s₀ = .ok s) :
    Represents clauses s [] [] := by
  obtain ⟨hadd, rfl⟩ := start_eq_ok h
  have hsent : sent clauses ((b.add s₀ [topLit]).2, false) = [[topLit]] := by
    simp [sent, hb.add _ _ hadd, h₀]
  refine ⟨⟨?_, ?_, ?_⟩, ?_, ?_, ?_, ?_, ?_, ?_⟩
  · simp [fresh, tables]
  · simp [fresh, tables]
  · simp [fresh, tables]
  · simp
  · simp [fresh]
  · simp only [fresh, hsent]
    simp [ClausesBelow, topLit]
  · -- The only clause is the one of the true literal.
    intro v hv
    simp only [fresh, hsent] at hv
    have htop : v.lit topLit = true := by simpa [Valuation.Satisfies, Valuation.clause] using hv
    refine ⟨htop, by simp [fresh, tables, Tables.Staircases], fun value _ => ⟨?_, trivial⟩⟩
    simp [fresh, tables, Tables.Names]
  · intro value _
    refine ⟨fun _ => true, ?_, ?_, ?_⟩
    · simp only [fresh, hsent]
      simp [Valuation.Satisfies, Valuation.clause, Valuation.lit, topLit]
    · simp [fresh, tables, Tables.Shows]
    · simp [fresh, tables, Tables.Names]
  · simp [fresh]

/-- Variables may be used up and expressions queued without effect on what is represented. -/
theorem Represents.congr {clauses : σ → List Clause} {s s' : Session σ} {exprs : List Expr}
    {assumed : List Assumption} (h : Represents clauses s exprs assumed)
    (hbackend : clauses s'.backend = clauses s.backend) (hnext : s.next ≤ s'.next)
    (hvars : s'.vars = s.vars) (hatoms : s'.atoms = s.atoms)
    (hassumptions : s'.assumptions = s.assumptions)
    (hcontradiction : s'.contradiction = s.contradiction) :
    Represents clauses s' exprs assumed := by
  have hsent : sent clauses (s'.backend, s'.contradiction) =
      sent clauses (s.backend, s.contradiction) := by
    simp only [sent, hbackend, hcontradiction]
  have htables : s'.tables = { s.tables with cnf := ⟨s'.next, #[]⟩ } := by
    simp only [tables, hvars, hatoms]
  refine ⟨?_, ?_, h.top.trans_le hnext, ?_, ?_, ?_, ?_⟩
  · rw [htables]
    exact h.wellFormed.mono _ hnext
  · rw [hvars]
    exact h.declared
  · rw [hsent]
    exact h.below.mono hnext
  · rw [hsent, htables]
    exact h.sound
  · rw [hsent, htables]
    exact h.complete
  · rw [hassumptions, htables]
    exact h.assumptions

/-! ### Committing -/

section Operations

variable {b : Backend σ} {clauses : σ → List Clause} {s s' : Session σ} {exprs : List Expr}
  {assumed : List Assumption}

/-- **Committing.** A batch that compiles is represented from then on. -/
theorem commit_represents (hb : b.Sound clauses) (hs : Represents clauses s exprs assumed)
    {x : Unit} (h : commit b s = .ok x s') (hroom : s'.next ≤ Lit.varLimit) :
    Represents clauses s' (exprs ++ s.pending) assumed ∧ s'.pending = [] ∧
      s'.assumptions = s.assumptions := by
  rcases commit_eq_ok h with ⟨hpending, rfl⟩ | ⟨t, r, hcompile, hflush, rfl⟩
  · refine ⟨?_, hpending, rfl⟩
    rw [hpending, List.append_nil]
    exact hs
  refine ⟨?_, rfl, rfl⟩
  have hcomp := compileAll_compiles hcompile hs.wellFormed hroom
  have hgrows := grows_compileAll hcompile
  have hle : s.next ≤ t.cnf.next := hgrows.cnf.next_le
  have hsent := fun v => satisfies_sent_flush (v := v) hb hflush
  -- A batch starts without clauses, so its clauses are all new.
  have hmeaning := fun value => (hcomp value).meaning.of_empty rfl
  have hwf : t.WellFormed := (hcomp fun _ => 0).wellFormed
  have hshown : ∀ value v, t.Shows value v → s.tables.Shows value v :=
    fun _ _ hshows => hshows.of_grows hgrows
  refine ⟨?_, ?_, hs.top.trans_le hle, ?_, ?_, ?_, ?_⟩
  · exact ⟨hwf.vars, hwf.names, hwf.atoms⟩
  · intro e he name values heq
    rcases List.mem_append.1 he with he | he
    · exact (hgrows.vars.map _).subset (hs.declared e he name values heq)
    · exact declared_compileAll hcompile e he name values heq
  · intro c hc
    rcases (mem_sent_flush hb hflush).1 hc with hc | hc
    · exact (hs.below.mono hle) c hc
    · exact (hmeaning fun _ => 0).1 c hc
  · -- What an old model shows is refined by the new clauses.
    intro v hv
    obtain ⟨hold, hnew⟩ := (hsent v).1 hv
    obtain ⟨htop, hstairs, hvalue⟩ := hs.sound v hold
    refine ⟨htop, ((hmeaning fun _ => 0).2.1 v hnew).1 hstairs, fun value hshows => ?_⟩
    obtain ⟨hnames, hexprs⟩ := hvalue value (hshown value v hshows)
    obtain ⟨hnames', hpending⟩ := ((hmeaning value).2.1 v hnew).2 hshows hnames
    exact ⟨hnames', Expr.allHold_append.2 ⟨hexprs, hpending⟩⟩
  · -- A model of the old clauses is changed at fresh variables only, so it stays one.
    intro value hall
    obtain ⟨hexprs, hpending⟩ := Expr.allHold_append.1 hall
    obtain ⟨v, hv, hshows, hnames⟩ := hs.complete value hexprs
    obtain ⟨w, hvw, hw, hshows', hnames', -⟩ := (hmeaning value).2.2 v ⟨hshows, hnames, hpending⟩
    exact ⟨w, (hsent w).2 ⟨hs.below.satisfies hvw hv, hw⟩, hshows', hnames'⟩
  · intro value v htop hshows
    exact hs.assumptions value v htop (hshown value v hshows)

/-- A batch that is taken back leaves what is represented as it was. -/
theorem Represents.withoutBatch (hs : Represents clauses s exprs assumed) {next : Nat}
    (hle : s.next ≤ next) : Represents clauses (s.withoutBatch next) exprs assumed :=
  hs.congr rfl hle rfl rfl rfl rfl

/-- A batch that fails keeps the variables it has used up. -/
theorem next_le_of_compileAll_error {e : Failure SessionError} {t : Tables}
    (h : compileAll s.pending s.tables = .error e t) : s.next ≤ t.cnf.next :=
  ((growing_cnf_compileAll _).error h).next_le

/-- A batch that fails leaves what is represented as it was, unless a clause of it was refused. -/
theorem commit_error_represents (hs : Represents clauses s exprs assumed) {e : SessionError}
    (h : commit b s = .error (.error e) s') :
    s'.pending = [] ∧ ((∃ text cause, e = .compile text cause) ∧
      Represents clauses s' exprs assumed ∨ ∃ message, e = .refused message) := by
  rcases commit_eq_error h with ⟨text, cause, t, rfl, hcompile, rfl⟩ |
    ⟨message, t, r, rfl, -, -, rfl⟩
  · exact ⟨rfl, .inl ⟨⟨text, cause, rfl⟩,
      hs.withoutBatch (next_le_of_compileAll_error hcompile)⟩⟩
  · exact ⟨rfl, .inr ⟨message, rfl⟩⟩

/-! ### Assuming -/

/-- All literals of an assumption are true where all its atoms are. -/
theorem assumptionLits_iff {v : Valuation} (htop : v.lit topLit = true) {atoms : List Atom} :
    (∀ l ∈ atoms.flatMap assumptionLits, v.lit l = true) ↔ ∀ a ∈ atoms, a.eval v := by
  rw [List.forall_mem_flatMap]
  refine forall₂_congr fun a _ => ?_
  cases a with
  | true => simp [assumptionLits, Atom.eval]
  | false => simp [assumptionLits, Atom.eval, htop]
  | lit l => simp [assumptionLits, Atom.eval]

/-- The atoms of an assumption are true exactly where the variable keeps the bound. -/
theorem assumptionAtoms_eq_ok {x : OrderVar} {n : Nat} (hx : x.WellFormed n) {op : Comparator}
    {bound : Int} {atoms : List Atom} (h : assumptionAtoms x op bound = .ok atoms)
    {v : Valuation} {k : Int} (hshow : x.Shows v k) :
    (∀ a ∈ atoms, a.eval v) ↔ op.Holds k bound := by
  cases op with
  | le =>
    cases h
    simp [OrderVar.eval_le hx hshow, Comparator.Holds]
  | lt =>
    obtain ⟨c, hc, h₁⟩ := Checked.bind_eq_ok.1 h
    cases h₁
    have hc' := (Word.fit_eq_ok_iff.1 hc).2
    simp only [List.forall_mem_singleton, OrderVar.eval_le hx hshow, decide_eq_true_eq,
      Comparator.Holds]
    omega
  | ge =>
    obtain ⟨a, ha, h₁⟩ := Checked.bind_eq_ok.1 h
    cases h₁
    simp [OrderVar.eval_ge hx hshow ha, Comparator.Holds]
  | gt =>
    obtain ⟨c, hc, h₁⟩ := Checked.bind_eq_ok.1 h
    obtain ⟨a, ha, h₂⟩ := Checked.bind_eq_ok.1 h₁
    cases h₂
    have hc' := (Word.fit_eq_ok_iff.1 hc).2
    simp only [List.forall_mem_singleton, OrderVar.eval_ge hx hshow ha, decide_eq_true_eq,
      Comparator.Holds]
    omega
  | eq =>
    obtain ⟨a, ha, h₁⟩ := Checked.bind_eq_ok.1 h
    cases h₁
    simp only [List.forall_mem_cons, List.not_mem_nil, false_imp_iff, implies_true, and_true,
      OrderVar.eval_le hx hshow, OrderVar.eval_ge hx hshow ha, decide_eq_true_eq,
      Comparator.Holds]
    omega

/-- What an accepted assumption comes from: a commit, a declared variable, and its atoms. -/
theorem assume_eq_ok {name : String} {op : Comparator} {bound : Int} {x : Unit}
    (h : assume b name op bound s = .ok x s') :
    ∃ s₁ y atoms, commit b s = .ok () s₁ ∧ (name, y) ∈ s₁.vars ∧
      assumptionAtoms y op bound = .ok atoms ∧
      s' = { s₁ with assumptions := s₁.assumptions ++ atoms.flatMap assumptionLits } := by
  obtain ⟨z, s₁, hcommit, h₁⟩ := Step.bind_eq_ok.1 h
  obtain ⟨s₂, s₃, hget, h₂⟩ := Step.bind_eq_ok.1 h₁
  obtain ⟨rfl, rfl⟩ := Step.get_eq_ok.1 hget
  cases hlookup : s₁.vars.lookup name with
  | none =>
    simp only [hlookup] at h₂
    exact absurd h₂ (by simp)
  | some y =>
    simp only [hlookup] at h₂
    obtain ⟨atoms, s₄, hatoms, h₃⟩ := Step.bind_eq_ok.1 h₂
    obtain ⟨hatoms', rfl⟩ := Step.checked_eq_ok.1 hatoms
    have hmem : (name, y) ∈ s₁.tables.vars := Tables.mem_of_lookup hlookup
    exact ⟨s₁, y, atoms, hcommit, hmem, hatoms', (Step.modify_eq_ok.1 h₃).symm⟩

/-- An assumption is refused with its batch, or because its name is still not declared after it. -/
theorem assume_eq_error {name : String} {op : Comparator} {bound : Int} {e : SessionError}
    (h : assume b name op bound s = .error (.error e) s') :
    commit b s = .error (.error e) s' ∨
      commit b s = .ok () s' ∧ s'.vars.lookup name = none ∧ e = .undeclaredVariable name := by
  rcases Step.bind_eq_error.1 h with hcommit | ⟨z, s₁, hcommit, h₁⟩
  · exact .inl hcommit
  rcases Step.bind_eq_error.1 h₁ with hget | ⟨s₂, s₃, hget, h₂⟩
  · exact absurd hget (by simp)
  obtain ⟨rfl, rfl⟩ := Step.get_eq_ok.1 hget
  cases hlookup : s₁.vars.lookup name with
  | none =>
    simp only [hlookup] at h₂
    obtain ⟨heq, rfl⟩ := Step.fail_eq_error.1 h₂
    cases heq
    exact .inr ⟨hcommit, hlookup, rfl⟩
  | some y =>
    -- Machine arithmetic may fault on the bound, which is no refusal.
    simp only [hlookup] at h₂
    rcases Step.bind_eq_error.1 h₂ with hatoms | ⟨atoms, s₄, hatoms, h₃⟩
    · obtain ⟨⟨f, -, hf⟩, -⟩ := Step.checked_eq_error.1 hatoms
      cases hf
    · exact absurd h₃ (by simp)

/-- **Assuming.** An assumption that is accepted is queued. -/
theorem assume_represents (hb : b.Sound clauses) (hs : Represents clauses s exprs assumed)
    {name : String} {op : Comparator} {bound : Int} {x : Unit}
    (h : assume b name op bound s = .ok x s') (hroom : s'.next ≤ Lit.varLimit) :
    Represents clauses s' (exprs ++ s.pending) (assumed ++ [⟨name, op, bound⟩]) ∧
      s'.pending = [] := by
  obtain ⟨s₁, y, atoms, hcommit, hmem, hatoms, rfl⟩ := assume_eq_ok h
  obtain ⟨hs₁, hpending, -⟩ := commit_represents hb hs hcommit hroom
  refine ⟨⟨hs₁.wellFormed, hs₁.declared, hs₁.top, hs₁.below, hs₁.sound, hs₁.complete, ?_⟩, hpending⟩
  intro value v htop hshows
  rw [List.forall_mem_append, List.forall_mem_append, hs₁.assumptions value v htop hshows,
    assumptionLits_iff htop,
    assumptionAtoms_eq_ok (hs₁.wellFormed.vars _ hmem) hatoms (hshows _ hmem)]
  simp [Assumption.Holds]

/-- An assumption that is refused is not queued; if its batch compiles and is sent, it stays. -/
theorem assume_error_represents (hb : b.Sound clauses) (hs : Represents clauses s exprs assumed)
    {name : String} {op : Comparator} {bound : Int} {e : SessionError}
    (h : assume b name op bound s = .error (.error e) s') (hroom : s'.next ≤ Lit.varLimit) :
    s'.pending = [] ∧ ((∃ text cause, e = .compile text cause) ∧
      Represents clauses s' exprs assumed ∨ e = .undeclaredVariable name ∧
        Represents clauses s' (exprs ++ s.pending) assumed ∨ ∃ message, e = .refused message) := by
  rcases assume_eq_error h with hcommit | ⟨hcommit, -, rfl⟩
  · obtain ⟨hpending, hcompile | hrefused⟩ := commit_error_represents hs hcommit
    · exact ⟨hpending, .inl hcompile⟩
    · exact ⟨hpending, .inr (.inr hrefused)⟩
  · obtain ⟨hs', hpending, -⟩ := commit_represents hb hs hcommit hroom
    exact ⟨hpending, .inr (.inl ⟨rfl, hs'⟩)⟩

/-! ### Asking -/

/-- The outcome that an answer of the backend stands for. -/
def outcomeOf (vars : List (String × OrderVar)) : Answer → Outcome
  | .sat value => .sat (decode vars value)
  | .unsat => .unsat
  | .interrupted => .interrupted

/-- What an outcome comes from: a commit and a contradiction, or a commit and an answer of the
backend. -/
theorem solve_eq_ok {limit : Option Nat} {outcome : Outcome}
    (h : solve b limit s = .ok outcome s') :
    ∃ s₁, commit b s = .ok () s₁ ∧
      (s₁.contradiction = true ∧ outcome = .unsat ∧ s' = { s₁ with assumptions := [] } ∨
        s₁.contradiction = false ∧ ∃ answer,
          (b.solve s₁.backend s₁.assumptions limit).1 = .ok answer ∧
          outcome = outcomeOf s₁.vars answer ∧
          s' = { s₁ with assumptions := [],
                         backend := (b.solve s₁.backend s₁.assumptions limit).2 }) := by
  obtain ⟨x, s₁, hcommit, h₁⟩ := Step.bind_eq_ok.1 h
  refine ⟨s₁, hcommit, ?_⟩
  simp only at h₁
  split_ifs at h₁ with hcontra hclock
  · cases h₁
    exact .inl ⟨hcontra, rfl, rfl⟩
  · refine .inr ⟨by simpa using hcontra, ?_⟩
    cases hanswer : (b.solve s₁.backend s₁.assumptions limit).1 with
    | error message =>
      simp only [hanswer] at h₁
      cases h₁
    | ok answer =>
      simp only [hanswer] at h₁
      cases answer with
      | sat value =>
        cases h₁
        exact ⟨_, rfl, rfl, rfl⟩
      | unsat =>
        cases h₁
        exact ⟨_, rfl, rfl, rfl⟩
      | interrupted =>
        cases h₁
        exact ⟨_, rfl, rfl, rfl⟩

/-- What a question can fail at: its commit, or the backend. -/
theorem solve_eq_error {limit : Option Nat} {e : SessionError}
    (h : solve b limit s = .error (.error e) s') :
    commit b s = .error (.error e) s' ∨ ∃ s₁ message, commit b s = .ok () s₁ ∧
      e = .backend message ∧ s' = { s₁ with
        assumptions := [], backend := (b.solve s₁.backend s₁.assumptions limit).2 } := by
  rcases Step.bind_eq_error.1 h with hcommit | ⟨x, s₁, hcommit, h₁⟩
  · exact .inl hcommit
  refine .inr ⟨s₁, ?_⟩
  simp only at h₁
  split_ifs at h₁ with hcontra hclock
  · cases h₁
  · split at h₁
    · cases h₁
    · cases h₁
    · cases h₁
    · next message hanswer =>
      cases h₁
      exact ⟨message, hcommit, rfl, rfl⟩

/-- A question uses up the assumptions and nothing else. -/
theorem Represents.asked (hs : Represents clauses s exprs assumed) {backend : σ}
    (hbackend : clauses backend = clauses s.backend) :
    Represents clauses { s with assumptions := [], backend := backend } exprs [] := by
  have hsent : sent clauses (backend, s.contradiction) =
      sent clauses (s.backend, s.contradiction) := by
    simp only [sent, hbackend]
  refine ⟨hs.wellFormed, hs.declared, hs.top, ?_, ?_, ?_, by simp⟩
  · simp only [hsent]
    exact hs.below
  · simp only [hsent]
    exact hs.sound
  · simp only [hsent]
    exact hs.complete

/-- A literal that has the value true is true in the valuation of the values. -/
theorem lit_of_litValue {value : Nat → Ternary} {l : Lit} (h : litValue value l = .true) :
    Valuation.lit (fun x => value x = .true) l = true := by
  unfold litValue at h
  cases hneg : l.neg with
  | true =>
    simp only [hneg, ↓reduceIte] at h
    cases hvar : value l.var <;> simp_all [Ternary.not, Valuation.lit]
  | false =>
    simp only [hneg, Bool.false_eq_true, ↓reduceIte] at h
    simp [Valuation.lit, hneg, h]

/-- The decoded solution has the value that a variable shows in the model. -/
theorem get?_decode (hs : Represents clauses s exprs assumed) (value : Nat → Ternary)
    {p : String × OrderVar} (hp : p ∈ s.vars) :
    (decode s.vars value).get? p.1 =
      some (p.2.decode (Valuation.lit fun y => value y = .true)) := by
  have hnodup : ((s.vars.map fun q =>
      (q.1, q.2.decode fun l => litValue value l = Ternary.true)).map (·.1)).Nodup := by
    rw [List.map_map]
    exact hs.wellFormed.names
  have hlits : ∀ l ∈ p.2.lits, decide (litValue value l = .true) =
      Valuation.lit (fun y => value y = .true) l := by
    intro l hl
    have hpos := (hs.wellFormed.vars _ hp).positive l hl
    simp [litValue, Valuation.lit, hpos]
  rw [decode, NameMap.get?_ofList hnodup, ← OrderVar.decode_congr hlits]
  exact NameMap.lookup_of_mem hnodup (List.mem_map.2 ⟨p, hp, rfl⟩)

/-- Where every model denies an assumption, no values satisfy expressions and assumptions. -/
theorem Represents.rightFor_unsat (hs : Represents clauses s exprs assumed)
    (h : ∀ v : Valuation, v.Satisfies (sent clauses (s.backend, s.contradiction)) →
      ∃ l ∈ s.assumptions, v.lit l = false) : Outcome.unsat.RightFor exprs assumed := by
  rintro ⟨value, hall, hassumed⟩
  obtain ⟨v, hv, hshows, -⟩ := hs.complete value hall
  obtain ⟨htop, -, -⟩ := hs.sound v hv
  obtain ⟨l, hl, hfalse⟩ := h v hv
  have htrue := (hs.assumptions value v htop hshows).2 hassumed l hl
  rw [hfalse] at htrue
  cases htrue

/-- A model is decoded to the values that it shows, and those are right. -/
theorem Represents.rightFor_sat (hs : Represents clauses s exprs assumed) {model : Nat → Ternary}
    (hv : Valuation.Satisfies (fun x => model x = .true)
      (sent clauses (s.backend, s.contradiction)))
    (hassumptions : ∀ l ∈ s.assumptions, litValue model l = .true) :
    Outcome.RightFor exprs assumed (.sat (decode s.vars model)) := by
  obtain ⟨htop, hstairs, hvalue⟩ := hs.sound _ hv
  have hget : ∀ p ∈ s.vars, (decode s.vars model).get? p.1 =
      some (p.2.decode (Valuation.lit fun y => model y = .true)) :=
    fun p hp => get?_decode hs model hp
  have hshows : s.tables.Shows (decode s.vars model).value fun x => model x = .true := by
    intro p hp
    rw [Solution.value, hget p hp, Option.getD_some]
    exact OrderVar.shows_decode (hs.wellFormed.vars p hp) (hstairs p hp)
  obtain ⟨-, hall⟩ := hvalue _ hshows
  refine ⟨fun e he name values heq => ?_, hall, ?_⟩
  · -- A declaration is satisfied, so the decoded value is one of those that it lists.
    obtain ⟨p, hp, rfl⟩ := List.mem_map.1 (hs.declared e he name values heq)
    refine ⟨_, ?_, hget p hp⟩
    have hholds := Expr.allHold_iff.1 hall e he
    rw [← Expr.holds_unlabeled, heq, Expr.Holds, Solution.value, hget p hp,
      Option.getD_some] at hholds
    exact hholds
  · exact (hs.assumptions _ _ htop hshows).1 fun l hl => lit_of_litValue (hassumptions l hl)

/-- **Asking.** With a sound backend the outcome is right for what the session has compiled and
queued. -/
theorem solve_represents (hb : b.Sound clauses) (hs : Represents clauses s exprs assumed)
    {limit : Option Nat} {outcome : Outcome} (h : solve b limit s = .ok outcome s')
    (hroom : s'.next ≤ Lit.varLimit) :
    Represents clauses s' (exprs ++ s.pending) [] ∧ s'.pending = [] ∧
      outcome.RightFor (exprs ++ s.pending) assumed := by
  obtain ⟨s₁, hcommit, ⟨hcontra, rfl, rfl⟩ | ⟨hcontra, answer, hanswer, rfl, rfl⟩⟩ := solve_eq_ok h
  · obtain ⟨hs₁, hpending, -⟩ := commit_represents hb hs hcommit hroom
    refine ⟨hs₁.asked rfl, hpending, hs₁.rightFor_unsat fun v hv => ?_⟩
    -- The empty clause was sent, so there are no models.
    have hempty := hv [] (by simp [sent, hcontra])
    simp [Valuation.clause] at hempty
  obtain ⟨hs₁, hpending, -⟩ := commit_represents hb hs hcommit hroom
  refine ⟨hs₁.asked (hb.solve _ _ _), hpending, ?_⟩
  have hsent : sent clauses (s₁.backend, s₁.contradiction) = clauses s₁.backend := by
    simp [sent, hcontra]
  have hright := hb.right _ _ _ _ hanswer
  cases answer with
  | interrupted => trivial
  | unsat =>
    refine hs₁.rightFor_unsat fun v hv => ?_
    rw [hsent] at hv
    exact hright v hv
  | sat model =>
    obtain ⟨hclauses, hassumptions⟩ := hright
    refine hs₁.rightFor_sat ?_ hassumptions
    rw [hsent]
    intro c hc
    obtain ⟨l, hl, ht⟩ := hclauses c hc
    exact Valuation.clause_eq_true_iff.2 ⟨l, hl, lit_of_litValue ht⟩

/-- A question that fails loses its batch, or its assumptions, or a clause was refused. -/
theorem solve_error_represents (hb : b.Sound clauses) (hs : Represents clauses s exprs assumed)
    {limit : Option Nat} {e : SessionError} (h : solve b limit s = .error (.error e) s')
    (hroom : s'.next ≤ Lit.varLimit) :
    s'.pending = [] ∧ ((∃ text cause, e = .compile text cause) ∧
      Represents clauses s' exprs assumed ∨ (∃ message, e = .backend message) ∧
        Represents clauses s' (exprs ++ s.pending) [] ∨ ∃ message, e = .refused message) := by
  rcases solve_eq_error h with hcommit | ⟨s₁, message, hcommit, rfl, rfl⟩
  · obtain ⟨hpending, hcompile | hrefused⟩ := commit_error_represents hs hcommit
    · exact ⟨hpending, .inl hcompile⟩
    · exact ⟨hpending, .inr (.inr hrefused)⟩
  · obtain ⟨hs₁, hpending, -⟩ := commit_represents hb hs hcommit hroom
    exact ⟨hpending, .inr (.inl ⟨⟨message, rfl⟩, hs₁.asked (hb.solve _ _ _)⟩)⟩

end Operations

end Session

end WeightedCsp

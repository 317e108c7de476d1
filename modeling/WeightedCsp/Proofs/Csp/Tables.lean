import WeightedCsp.Csp.Compile
import WeightedCsp.Proofs.Encoding.Order
import WeightedCsp.Proofs.Encoding.PseudoBoolean

/-!
# What the compiler's tables represent

Under an assignment of integers to names, a valuation represents the tables if every encoded
variable shows its integer (`Tables.Shows`) and every entered atom has the truth of its equality
(`Tables.Names`).  `Compiles` says what a run of the compiler means in these terms: the new clauses
force a statement on every model that shows the assignment, and a valuation that represents the old
tables extends to a model that represents the new ones.  `Compiles.trans` puts runs together, so
each function of the compiler needs one lemma about itself alone.
-/

namespace WeightedCsp

namespace Tables

/-- Nothing is taken out of the tables. -/
structure Grows (t u : Tables) : Prop where
  cnf : t.cnf.Grows u.cnf
  vars : t.vars <:+ u.vars
  atoms : t.atoms <:+ u.atoms

theorem Grows.refl (t : Tables) : t.Grows t :=
  ⟨.refl _, List.suffix_refl _, List.suffix_refl _⟩

/-- Tables that grow twice grow. -/
theorem Grows.trans {t u w : Tables} (h₁ : t.Grows u) (h₂ : u.Grows w) : t.Grows w :=
  ⟨h₁.cnf.trans h₂.cnf, h₁.vars.trans h₂.vars, h₁.atoms.trans h₂.atoms⟩

/-- Each name is encoded once, and everything in the tables is over variables in use. -/
structure WellFormed (t : Tables) : Prop where
  /-- The encoded variables are well formed. -/
  vars : ∀ p ∈ t.vars, p.2.WellFormed t.cnf.next
  /-- No name is encoded twice. -/
  names : (t.vars.map (·.1)).Nodup
  /-- The atoms are over variables in use. -/
  atoms : ∀ p ∈ t.atoms, p.2.Below t.cnf.next

/-- Well-formed tables stay so when variables are handed out. -/
theorem WellFormed.mono {t : Tables} (h : t.WellFormed) (cnf : Cnf)
    (hle : t.cnf.next ≤ cnf.next) : WellFormed { t with cnf := cnf } :=
  ⟨fun p hp => (h.vars p hp).mono hle, h.names, fun p hp => (h.atoms p hp).mono hle⟩

/-- The literals of every encoded variable form a staircase. -/
def Staircases (v : Valuation) (t : Tables) : Prop := ∀ p ∈ t.vars, p.2.Staircase v

/-- Every encoded variable shows its integer. -/
def Shows (value : String → Int) (v : Valuation) (t : Tables) : Prop :=
  ∀ p ∈ t.vars, p.2.Shows v (value p.1)

/-- Every atom is true exactly when its equality is. -/
def Names (value : String → Int) (v : Valuation) (t : Tables) : Prop :=
  ∀ p ∈ t.atoms, p.2.eval v ↔ value p.1.1 = p.1.2

variable {value : String → Int} {v : Valuation} {t u : Tables}

/-- A valuation that shows the values in larger tables shows them in smaller ones. -/
theorem Shows.of_grows (h : u.Shows value v) (hg : t.Grows u) : t.Shows value v :=
  fun p hp => h p (hg.vars.subset hp)

/-- That values are shown hangs on the variables in use. -/
theorem WellFormed.stable_shows (ht : t.WellFormed) (value : String → Int) :
    StableBelow t.cnf.next (t.Shows value ·) :=
  fun _ _ hvw h p hp => (h p hp).congr (ht.vars p hp) hvw

/-- What the atoms name hangs on the variables in use. -/
theorem WellFormed.stable_names (ht : t.WellFormed) (value : String → Int) :
    StableBelow t.cnf.next (t.Names value ·) := by
  intro v w hvw h p hp
  rw [(ht.atoms p hp).eval_eq hvw]
  exact h p hp

/-- A variable that is found is in the table. -/
theorem mem_of_lookup {name : String} {x : OrderVar} (h : t.vars.lookup name = some x) :
    (name, x) ∈ t.vars := by
  obtain ⟨l₁, l₂, heq, -⟩ := List.lookup_eq_some_iff.1 h
  simp [heq]

/-- An atom that is found is in the table. -/
theorem mem_of_lookup_atom {name : String} {k : Int} {a : Atom}
    (h : t.atoms.lookup (name, k) = some a) : ((name, k), a) ∈ t.atoms := by
  obtain ⟨l₁, l₂, heq, -⟩ := List.lookup_eq_some_iff.1 h
  simp [heq]

end Tables

/-! ### The meaning of a run -/

/-- A run of the compiler from `t` to `u`.  In a model of the new clauses that shows the assignment
`value`, the new atoms have their meaning and `forced` is true; and a valuation that represents `t`
and is `wanted` extends to a model that represents `u` and has what is `given`. -/
structure Compiles (value : String → Int) (t u : Tables) (forced wanted given : Valuation → Prop) :
    Prop where
  /-- Nothing is taken out of the tables. -/
  grows : t.Grows u
  /-- The tables stay well formed. -/
  wellFormed : u.WellFormed
  /-- What the new clauses mean. -/
  meaning : Encodes t.cnf u.cnf
    (fun v => (t.Staircases v → u.Staircases v) ∧
      (u.Shows value v → t.Names value v → u.Names value v ∧ forced v))
    (fun v => t.Shows value v ∧ t.Names value v ∧ wanted v)
    (fun w => u.Shows value w ∧ u.Names value w ∧ given w)

namespace Compiles

variable {value : String → Int} {t u w : Tables} {p q r p' q' r' : Valuation → Prop}

/-- A weaker statement is compiled where a stronger one is, as far as the shown values go. -/
theorem mono (h : Compiles value t u p q r)
    (hp : ∀ v, u.Shows value v → p v → p' v) (hq : ∀ v, t.Shows value v → q' v → q v)
    (hr : ∀ v, u.Shows value v → r v → r' v) : Compiles value t u p' q' r' := by
  refine ⟨h.grows, h.wellFormed, h.meaning.mono ?_ ?_ ?_⟩
  · rintro v ⟨hstairs, hforced⟩
    refine ⟨hstairs, fun hshows hnames => ?_⟩
    obtain ⟨hnames', hpv⟩ := hforced hshows hnames
    exact ⟨hnames', hp v hshows hpv⟩
  · rintro v ⟨hshows, hnames, hqv⟩
    exact ⟨hshows, hnames, hq v hshows hqv⟩
  · rintro v ⟨hshows, hnames, hrv⟩
    exact ⟨hshows, hnames, hr v hshows hrv⟩

/-- A run that leaves the tables alone. -/
theorem refl (ht : t.WellFormed) (hp : ∀ v, t.Shows value v → t.Names value v → p v)
    (hr : ∀ v, t.Shows value v → t.Names value v → q v → r v) : Compiles value t t p q r := by
  refine ⟨.refl t, ht, Encodes.refl _ ?_ ?_⟩
  · intro v
    exact ⟨id, fun hshows hnames => ⟨hnames, hp v hshows hnames⟩⟩
  · rintro v ⟨hshows, hnames, hqv⟩
    exact ⟨hshows, hnames, hr v hshows hnames hqv⟩

/-- Setting fresh variables keeps what hangs on old ones. -/
theorem frame (h : Compiles value t u p q r) {f : Valuation → Prop}
    (hf : StableBelow t.cnf.next f) :
    Compiles value t u p (fun v => q v ∧ f v) fun v => r v ∧ f v := by
  refine ⟨h.grows, h.wellFormed, (h.meaning.frame hf).mono (fun v hv => hv) ?_ ?_⟩
  · rintro v ⟨hshows, hnames, hqv, hfv⟩
    exact ⟨⟨hshows, hnames, hqv⟩, hfv⟩
  · rintro v ⟨⟨hshows, hnames, hrv⟩, hfv⟩
    exact ⟨hshows, hnames, hrv, hfv⟩

/-- **One run after another.** What the first run gives is wanted by the second one, and stays. -/
theorem trans (h₁ : Compiles value t u p q r) (h₂ : Compiles value u w p' q' r')
    (hq : ∀ v, r v → q' v) (hr : StableBelow u.cnf.next r) :
    Compiles value t w (fun v => p v ∧ p' v) q fun v => r v ∧ r' v := by
  have hstable := (h₁.wellFormed.stable_shows value).and ((h₁.wellFormed.stable_names value).and hr)
  have hboth := h₁.meaning.trans h₂.meaning
    (fun v hv => ⟨hv.1, hv.2.1, hq v hv.2.2⟩) hstable
  refine ⟨h₁.grows.trans h₂.grows, h₂.wellFormed, hboth.mono ?_ (fun v hv => hv) ?_⟩
  · rintro v ⟨⟨hstairs₁, hforced₁⟩, hstairs₂, hforced₂⟩
    refine ⟨fun h => hstairs₂ (hstairs₁ h), fun hshows hnames => ?_⟩
    obtain ⟨hnames₁, hp⟩ := hforced₁ (hshows.of_grows h₂.grows) hnames
    obtain ⟨hnames₂, hp'⟩ := hforced₂ hshows hnames₁
    exact ⟨hnames₂, hp, hp'⟩
  · rintro v ⟨⟨-, -, hrv⟩, hshows, hnames, hrv'⟩
    exact ⟨hshows, hnames, hrv, hrv'⟩

/-- A run of an encoder on the clauses of the tables. -/
theorem of_encodes {cnf : Cnf} (ht : t.WellFormed)
    (h : Encodes t.cnf cnf (fun v => t.Shows value v → p v) (fun v => t.Shows value v ∧ q v) r) :
    Compiles value t { t with cnf := cnf } p q r := by
  have hle := h.grows.next_le
  refine ⟨⟨h.grows, List.suffix_refl _, List.suffix_refl _⟩, ht.mono cnf hle, ?_⟩
  have hframe := h.frame ((ht.stable_shows value).and (ht.stable_names value))
  refine hframe.mono ?_ ?_ ?_
  · intro v hv
    exact ⟨id, fun hshows hnames => ⟨hnames, hv hshows⟩⟩
  · rintro v ⟨hshows, hnames, hqv⟩
    exact ⟨⟨hshows, hqv⟩, hshows, hnames⟩
  · rintro v ⟨hrv, hshows, hnames⟩
    exact ⟨hshows, hnames, hrv⟩

theorem mono_const {F G : Prop} (h : Compiles value t u (fun _ => F) (fun _ => F) r)
    (hFG : F ↔ G) : Compiles value t u (fun _ => G) (fun _ => G) r :=
  h.mono (fun _ _ => hFG.1) (fun _ _ => hFG.2) fun _ _ hr => hr

/-- Two demands one after the other. -/
theorem demandBoth {F G : Prop} (h₁ : Compiles value t u (fun _ => F) (fun _ => F) fun _ => True)
    (h₂ : Compiles value u w (fun _ => G) (fun _ => G) fun _ => True) :
    Compiles value t w (fun _ => F ∧ G) (fun _ => F ∧ G) fun _ => True := by
  have hstay : StableBelow t.cnf.next fun _ => G := fun _ _ _ hG => hG
  refine ((h₁.frame hstay).trans h₂ (fun _ h => h.2) fun _ _ _ h => h).mono ?_ ?_ ?_
  · exact fun _ _ h => h
  · exact fun _ _ h => h
  · exact fun _ _ _ => trivial

end Compiles

end WeightedCsp

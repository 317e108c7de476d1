import Mathlib
import WeightedCsp.Formulation.Translator
import WeightedCsp.Proofs.Formulation.Memory

/-!
# The tables keep the formulation

A translator is a formulation that is kept in tables: `ofFormulation` gives the tables of a
formulation, and no request can tell the two apart (`addVariable_ofFormulation`,
`addConstraint_ofFormulation`, `penalty_ofFormulation`).  What a request does to the tables is said
once for each kind of request (`addVariable_apply`, `addConstraint_apply`); that nothing is left of
one that is refused follows from the order in which they are changed.

So a sequence of requests is answered as by a formulation (`askAll_ofFormulation`), and the tables
hold what the log says was translated (`askAll_memory`).  In particular a model is translated as it
is formulated (`addModel_empty`).
-/

namespace WeightedCsp

namespace Translator

open Formulation

/-! ### Requests to the tables -/

/-- A variable that was translated gets the same answer, and a new one is entered. -/
theorem addVariable_apply (x : Variable) (t : Translator) : addVariable x t =
    match t.findVariable? x.name with
    | some (y, exprs) => if y = x then .ok exprs t else .error (.duplicateDeclaration x.name) t
    | none => .ok (variableExprs x) { t with vars := (x, variableExprs x) :: t.vars } := by
  have hget : (get : Translating Translator) t = .ok t t := rfl
  simp only [addVariable, bind, EStateM.bind, hget]
  cases hfind : t.findVariable? x.name with
  | none =>
    show EStateM.Result.ok (told (List.find? _ ((x, variableExprs x) :: t.vars))) _ = _
    simp [told]
  | some entry =>
    obtain ⟨y, exprs⟩ := entry
    by_cases hyx : y = x
    · simp only [hyx, ne_eq, not_true_eq_false, if_false, if_true]
      show EStateM.Result.ok (told (t.findVariable? x.name)) t = _
      rw [hfind]
      rfl
    · simp only [ne_eq, hyx, not_false_eq_true, if_true, if_false]
      rfl

/-- The tables with a penalty more. -/
def withPenalty (t : Translator) : Option Penalty → Translator
  | none => t
  | some p => { t with
      penalties := t.penalties ++ [p]
      places := (p.constraint, t.penalties.length) :: t.places }

theorem constraints_withPenalty (t : Translator) (p : Option Penalty) :
    (t.withPenalty p).constraints = t.constraints := by
  cases p <;> rfl

/-- A constraint says what it says, or is refused. -/
theorem say_apply (c : Constraint) (t : Translator) : say c t =
    if isSoftAllDifferent c then .error (softAllDifferent c) t
    else .ok (constraintExprs c) (t.withPenalty (penaltyOf? c)) := by
  obtain ⟨name, weight, body⟩ := c
  cases body <;> cases weight <;> rfl

/-- A constraint that was translated gets the same answer, and a new one is checked first. -/
theorem addConstraint_apply (c : Constraint) (t : Translator) : addConstraint c t =
    match t.findConstraint? c.name with
    | some (d, exprs) => if d = c then .ok exprs t else .error (.duplicateDeclaration c.name) t
    | none =>
      match t.firstUnknown? c.vars with
      | some x => .error (.undeclaredVariable c.name x.name) t
      | none =>
        if isSoftAllDifferent c then .error (softAllDifferent c) t
        else .ok (constraintExprs c) { t.withPenalty (penaltyOf? c) with
          constraints := (c, constraintExprs c) :: t.constraints } := by
  have hget : (get : Translating Translator) t = .ok t t := rfl
  simp only [addConstraint, bind, EStateM.bind, hget]
  cases hfind : t.findConstraint? c.name with
  | none =>
    simp only [EStateM.bind, hget]
    cases hunknown : t.firstUnknown? c.vars with
    | some x =>
      simp only [EStateM.bind]
      rfl
    | none =>
      simp only [EStateM.bind, say_apply]
      cases isSoftAllDifferent c with
      | true =>
        -- It is refused before any table is changed.
        rfl
      | false =>
        simp only [Bool.false_eq_true, if_false]
        show EStateM.Result.ok (told (List.find? _
          ((c, constraintExprs c) :: (t.withPenalty (penaltyOf? c)).constraints))) _ = _
        simp [told, constraints_withPenalty]
  | some entry =>
    obtain ⟨d, exprs⟩ := entry
    by_cases hdc : d = c
    · simp only [hdc, ne_eq, not_true_eq_false, if_false, if_true]
      show EStateM.Result.ok (told (t.findConstraint? c.name)) t = _
      rw [hfind]
      rfl
    · simp only [ne_eq, hdc, not_false_eq_true, if_true, if_false]
      rfl

/-! ### Tables of a formulation -/

/-- Where the penalties stand, by the names of their constraints. -/
def placesOf (ps : List Penalty) : List (String × Nat) :=
  ps.zipIdx.map fun e => (e.1.constraint, e.2)

/-- The tables that keep a formulation. -/
def ofFormulation (f : Formulation) : Translator where
  vars := (f.vars.map fun x => (x, variableExprs x)).reverse
  constraints := (f.constraints.map fun c => (c, constraintExprs c)).reverse
  penalties := f.penalties
  places := (placesOf f.penalties).reverse

theorem formulation_ofFormulation (f : Formulation) : (ofFormulation f).formulation = f := by
  simp [formulation, ofFormulation, Function.comp_def]

/-- Where a key is given once, it does not matter from which end it is looked for. -/
theorem find?_key_reverse {α : Type} {key : α → String} {as : List α}
    (hnodup : (as.map key).Nodup) (name : String) :
    as.reverse.find? (key · = name) = as.find? (key · = name) := by
  have hreverse : (as.reverse.map key).Nodup := by
    rw [List.map_reverse]
    exact List.nodup_reverse.2 hnodup
  ext a
  rw [find?_key_eq_some hnodup, find?_key_eq_some hreverse, List.mem_reverse]

/-- Looking up the last entry of a table is looking up an element by its key, where keys differ. -/
theorem find?_table {α : Type} {key : α → String} {as : List α} (hnodup : (as.map key).Nodup)
    (say : α → List Expr) (name : String) :
    (as.map fun a => (a, say a)).reverse.find? (fun e => key e.1 = name) =
      (as.find? (key · = name)).map fun a => (a, say a) := by
  have hkeys : ((as.map fun a => (a, say a)).map fun e => key e.1).Nodup := by
    rwa [List.map_map]
  rw [find?_key_reverse hkeys, List.find?_map]
  rfl

theorem map_fst_placesOf (ps : List Penalty) :
    (placesOf ps).map (·.1) = ps.map (·.constraint) := by
  conv_rhs => rw [← List.zipIdx_map_fst 0 ps]
  rw [placesOf, List.map_map, List.map_map]
  rfl

/-- The place that is found for a constraint is the one of its penalty. -/
theorem entry_of_place {ps : List Penalty} (hnodup : (ps.map (·.constraint)).Nodup) {p : Penalty}
    (hp : p ∈ ps) : ∃ place, (placesOf ps).find? (·.1 = p.constraint) = some (p.constraint, place) ∧
      Checked.entry ps place = .ok p := by
  obtain ⟨place, hplace⟩ := List.mem_iff_getElem?.1 hp
  have hentry : (p.constraint, place) ∈ placesOf ps :=
    List.mem_map.2 ⟨(p, place), List.mem_zipIdx_iff_getElem?.2 hplace, rfl⟩
  have hplaces : ((placesOf ps).map (·.1)).Nodup := map_fst_placesOf ps ▸ hnodup
  refine ⟨place, find?_key hplaces hentry, ?_⟩
  rw [Checked.entry, hplace]

section Tables

variable {f : Formulation}

/-- A variable of the formulation is found with what it says. -/
theorem findVariable?_ofFormulation (hf : f.Consistent) (name : String) :
    (ofFormulation f).findVariable? name =
      (f.vars.find? (·.name = name)).map fun x => (x, variableExprs x) :=
  find?_table hf.vars variableExprs name

/-- A constraint of the formulation is found with what it says. -/
theorem findConstraint?_ofFormulation (hf : f.Consistent) (name : String) :
    (ofFormulation f).findConstraint? name =
      (f.constraints.find? (·.name = name)).map fun c => (c, constraintExprs c) :=
  find?_table hf.constraints constraintExprs name

theorem firstUnknown?_ofFormulation (hf : f.Consistent) (xs : List Variable) :
    (ofFormulation f).firstUnknown? xs = f.firstUnknown? xs := by
  simp only [firstUnknown?, Formulation.firstUnknown?, findVariable?_ofFormulation hf,
    Option.map_map, Function.comp_def, Option.map_id']

/-- Entering a constraint into the formulation enters it into the tables. -/
theorem ofFormulation_withConstraint (f : Formulation) (c : Constraint) :
    ofFormulation (f.withConstraint c) = { (ofFormulation f).withPenalty (penaltyOf? c) with
      constraints := (c, constraintExprs c) :: (ofFormulation f).constraints } := by
  -- The place of a new penalty is where the list ended before.
  unfold withConstraint
  cases penaltyOf? c <;> simp [ofFormulation, placesOf, withPenalty, List.zipIdx_append]

/-- The result of a request, with the tables of the formulation after it. -/
def keep (f : Formulation) : Except FormulationError (List Expr × Formulation) →
    EStateM.Result FormulationError Translator (List Expr)
  | .ok (exprs, f') => .ok exprs (ofFormulation f')
  | .error e => .error e (ofFormulation f)

/-- **Variables** are answered from the tables as they are from the formulation. -/
theorem addVariable_ofFormulation (hf : f.Consistent) (x : Variable) :
    addVariable x (ofFormulation f) = keep f (f.addVariable x) := by
  rw [addVariable_apply, findVariable?_ofFormulation hf]
  unfold Formulation.addVariable
  cases f.vars.find? (·.name = x.name) with
  | none => simp [keep, ofFormulation]
  | some y =>
    by_cases hyx : y = x
    · simp [hyx, keep]
    · simp [hyx, keep]

/-- **Constraints** are answered from the tables as they are from the formulation. -/
theorem addConstraint_ofFormulation (hf : f.Consistent) (c : Constraint) :
    addConstraint c (ofFormulation f) = keep f (f.addConstraint c) := by
  rw [addConstraint_apply, findConstraint?_ofFormulation hf, firstUnknown?_ofFormulation hf]
  unfold Formulation.addConstraint
  cases f.constraints.find? (·.name = c.name) with
  | some d =>
    by_cases hdc : d = c
    · simp [hdc, keep]
    · simp [hdc, keep]
  | none =>
    cases f.firstUnknown? c.vars with
    | some x => rfl
    | none =>
      cases isSoftAllDifferent c with
      | true => rfl
      | false =>
        rw [← ofFormulation_withConstraint]
        rfl

/-- **Penalties** are found at their places. -/
theorem penalty_ofFormulation (hf : f.Consistent) (name : String) :
    (ofFormulation f).penalty name = Failure.ofExcept (f.penalty name) := by
  have hplaces : ((placesOf f.penalties).map (·.1)).Nodup :=
    map_fst_placesOf f.penalties ▸ hf.nodup_penalties
  have hlookUp : (ofFormulation f).places.find? (·.1 = name) =
      (placesOf f.penalties).find? (·.1 = name) := find?_key_reverse hplaces name
  unfold Translator.penalty Formulation.penalty
  rw [hlookUp]
  cases hfind : f.penalties.find? (·.constraint = name) with
  | none =>
    -- A constraint without penalty has no place either.
    have hnone : (placesOf f.penalties).find? (·.1 = name) = none := by
      apply find?_key_eq_none
      rw [map_fst_placesOf]
      intro hmem
      obtain ⟨p, hp, hname⟩ := List.mem_map.1 hmem
      exact List.find?_eq_none.1 hfind p hp (decide_eq_true hname)
    rw [hnone]
    rfl
  | some p =>
    obtain ⟨hp, rfl⟩ := (find?_key_eq_some hf.nodup_penalties).1 hfind
    obtain ⟨place, hplace, hentry⟩ := entry_of_place hf.nodup_penalties hp
    rw [hplace]
    show (liftM (Checked.entry f.penalties place) : Except (Failure FormulationError) Penalty) = _
    rw [hentry]
    rfl

end Tables

/-! ### Sequences of requests -/

/-- The answer to a request and the tables after it. -/
def settle : EStateM.Result FormulationError Translator (List Expr) →
    Formulation.Answer × Translator
  | .ok exprs t => (.ok exprs, t)
  | .error e t => (.error e, t)

/-- Asks for an entity to be translated. -/
def ask (t : Translator) : Entity → Formulation.Answer × Translator
  | .var x => settle (addVariable x t)
  | .constraint c => settle (addConstraint c t)

/-- The log of a sequence of requests and the tables after them. -/
def askAll (t : Translator) : List Entity → List (Entity × Formulation.Answer) × Translator
  | [] => ([], t)
  | e :: es =>
    let (r, t') := t.ask e
    let (log, t'') := t'.askAll es
    ((e, r) :: log, t'')

theorem settle_keep (f : Formulation) (r : Except FormulationError (List Expr × Formulation)) :
    settle (keep f r) = ((f.settle r).1, ofFormulation (f.settle r).2) := by
  cases r <;> rfl

/-- **Step.** The tables answer like the formulation that they keep, and keep the next one. -/
theorem ask_ofFormulation {f : Formulation} (hf : f.Consistent) (e : Entity) :
    (ofFormulation f).ask e = ((f.ask e).1, ofFormulation (f.ask e).2) := by
  cases e with
  | var x =>
    show settle (addVariable x (ofFormulation f)) = _
    rw [addVariable_ofFormulation hf]
    exact settle_keep f _
  | constraint c =>
    show settle (addConstraint c (ofFormulation f)) = _
    rw [addConstraint_ofFormulation hf]
    exact settle_keep f _

/-- **Run.** So they do for a sequence of requests. -/
theorem askAll_ofFormulation {f : Formulation} (hf : f.Consistent) (es : List Entity) :
    (ofFormulation f).askAll es = ((f.askAll es).1, ofFormulation (f.askAll es).2) := by
  induction es generalizing f with
  | nil => rfl
  | cons e es ih =>
    rw [askAll, ask_ofFormulation hf, Formulation.askAll]
    simp only [ih (hf.ask e)]

/-! ### Models -/

/-- The result of a step of a formulation, with the tables that keep it. -/
def keepStep {α : Type} : EStateM.Result (Failure FormulationError) Formulation α →
    EStateM.Result (Failure FormulationError) Translator α
  | .ok a f => .ok a (ofFormulation f)
  | .error e f => .error e (ofFormulation f)

theorem requested_addAll_cons {α : Type} (request : α → Translating (List Expr)) (a : α)
    (as : List α) (t : Translator) : requested (addAll request (a :: as)) t =
    match request a t with
    | .error e t' => .error (.error e) t'
    | .ok exprs t' =>
      match requested (addAll request as) t' with
      | .ok others t'' => .ok (exprs ++ others) t''
      | .error e t'' => .error e t'' := by
  have hrun : addAll request (a :: as) t =
      EStateM.bind (request a) (fun exprs => do return exprs ++ (← addAll request as)) t := rfl
  rw [requested, hrun, EStateM.bind]
  cases request a t with
  | error e t' => rfl
  | ok exprs t' =>
    have hrest : (do return exprs ++ (← addAll request as) : Translating (List Expr)) t' =
        EStateM.bind (addAll request as) (fun others => pure (exprs ++ others)) t' := rfl
    simp only [hrest, EStateM.bind, requested]
    cases addAll request as t' <;> rfl

/-- **Entities.** Entities are translated one after the other as they are formulated, if each of
them is. -/
theorem requested_addAll {α : Type} (request : α → Translating (List Expr))
    (add : α → Formulation → Except FormulationError (List Expr × Formulation))
    (all : List α → Step FormulationError Formulation (List Expr)) (hnil : all [] = pure [])
    (hcons : ∀ a as f, all (a :: as) f =
      match add a f with
      | .error e => .error (.error e) f
      | .ok (exprs, f') =>
        match all as f' with
        | .ok others f'' => .ok (exprs ++ others) f''
        | .error e f'' => .error e f'')
    (hrequest : ∀ a {f : Formulation}, f.Consistent →
      request a (ofFormulation f) = keep f (add a f))
    (hadd : ∀ a {f : Formulation}, f.Consistent → (f.settle (add a f)).2.Consistent)
    {f : Formulation} (hf : f.Consistent) (as : List α) :
    requested (addAll request as) (ofFormulation f) = keepStep (all as f) ∧
      ∀ exprs f', all as f = .ok exprs f' → f'.Consistent := by
  induction as generalizing f with
  | nil =>
    rw [hnil]
    refine ⟨rfl, ?_⟩
    rintro exprs f' ⟨⟩
    exact hf
  | cons a as ih =>
    rw [requested_addAll_cons, hrequest a hf, hcons]
    cases hown : add a f with
    | error e => exact ⟨rfl, nofun⟩
    | ok p =>
      obtain ⟨exprs, f'⟩ := p
      -- Only the tables of a consistent formulation are read like it.
      have hnext : (f.settle (.ok (exprs, f'))).2.Consistent := hown ▸ hadd a hf
      obtain ⟨hothers, hlast⟩ := ih (f := f') hnext
      simp only [keep, hothers]
      cases hall : all as f' with
      | error e f'' => exact ⟨rfl, nofun⟩
      | ok others f'' =>
        refine ⟨rfl, ?_⟩
        rintro exprs f' ⟨⟩
        exact hlast others f'' hall

/-- **Models.** A model is translated as it is formulated. -/
theorem addModel_empty (m : Model) :
    addModel m .empty = keepStep (Formulation.addModel m .empty) := by
  obtain ⟨hvars, hnext⟩ := requested_addAll addVariable (fun x f => f.addVariable x) addVariables
    rfl (fun _ _ _ => rfl) (fun x _ hf => addVariable_ofFormulation hf x)
    (fun x _ hf => hf.ask (.var x)) consistent_empty m.vars
  have hempty : ofFormulation .empty = empty := rfl
  unfold addModel Formulation.addModel
  simp only [bind, EStateM.bind, ← hempty, hvars]
  cases hxs : addVariables m.vars .empty with
  | error e f => rfl
  | ok xs f =>
    obtain ⟨hcons, -⟩ := requested_addAll addConstraint (fun c f => f.addConstraint c)
      addConstraints rfl (fun _ _ _ => rfl) (fun c _ hf => addConstraint_ofFormulation hf c)
      (fun c _ hf => hf.ask (.constraint c)) (hnext xs f hxs) m.constraints
    simp only [keepStep, hcons]
    cases addConstraints m.constraints f with
    | error e f' => rfl
    | ok cs f' =>
      have hget : (get : Step FormulationError Translator Translator) (ofFormulation f') =
          .ok (ofFormulation f') (ofFormulation f') := rfl
      have hget' : (get : Step FormulationError Formulation Formulation) f' = .ok f' f' := rfl
      simp only [hget, hget', formulation_ofFormulation]
      split_ifs
      · cases f'.objective <;> rfl
      · rfl

/-! ### The memory -/

/-- What holds of the tables with the log of the requests to them. -/
structure Memory (log : List (Entity × Formulation.Answer)) (t : Translator) : Prop where
  /-- The variables that were translated are in their table, each once and with what is said of it
  alone. -/
  vars : t.vars =
    ((log.filterMap formulatedVar?).eraseDups.map fun x => (x, variableExprs x)).reverse
  /-- The constraints that were translated are in their table in the same way. -/
  constraints : t.constraints =
    ((log.filterMap formulatedConstraint?).eraseDups.map fun c => (c, constraintExprs c)).reverse
  /-- There is one penalty for each soft constraint, in the order in which they came up first. -/
  penalties : List.Forall₂ Describes
    ((log.filterMap formulatedConstraint?).eraseDups.filter (·.isSoft)) t.penalties
  /-- The places are those of the penalties. -/
  places : t.places = (placesOf t.penalties).reverse
  /-- An answer depends on the entity alone. -/
  answers : ∀ p ∈ log, ∀ es, p.2 = .ok es → es = p.1.exprs
  /-- An entity is translated exactly if the tables admit it. -/
  admission : ∀ e, (t.ask e).1 = .ok e.exprs ↔ t.formulation.Admits e
  /-- A refused request changes nothing. -/
  refusal : ∀ e why, (t.ask e).1 = .error why → (t.ask e).2 = t
  /-- An entity that was translated before is answered in the same way, and nothing changes. -/
  repetition : ∀ p ∈ log, ∀ es, p.2 = .ok es → t.ask p.1 = (.ok es, t)
  /-- The name of a soft constraint that was translated leads to its penalty. -/
  found : ∀ c ∈ log.filterMap formulatedConstraint?, c.isSoft →
    ∃ p ∈ t.penalties, Describes c p ∧ t.penalty c.name = .ok p
  /-- No other name leads to a penalty. -/
  missing : ∀ name, (∀ c ∈ log.filterMap formulatedConstraint?, c.isSoft → c.name ≠ name) →
    t.penalty name = .error (.error (.noPenalty name))

theorem memory_of_remembers {log : List (Entity × Formulation.Answer)} {f : Formulation}
    (h : Remembers log f) : Memory log (ofFormulation f) where
  vars := by rw [← h.vars_eq]; rfl
  constraints := by rw [← h.constraints_eq]; rfl
  penalties := by
    rw [← h.constraints_eq]
    exact h.forall₂_describes
  places := rfl
  answers := h.answers
  admission e := by
    rw [ask_ofFormulation h.toConsistent, formulation_ofFormulation]
    rcases ask_eq h.toConsistent e with ⟨hadmits, hask⟩ | ⟨hadmits, why, hask⟩
    · simp only [hask, hadmits]
    · simp [hask, hadmits]
  refusal e why hwhy := by
    rw [ask_ofFormulation h.toConsistent] at hwhy ⊢
    rcases ask_eq h.toConsistent e with ⟨-, hask⟩ | ⟨-, why', hask⟩
    · rw [hask] at hwhy
      cases hwhy
    · rw [hask]
  repetition := by
    rintro ⟨e, r⟩ hmem es rfl
    rw [ask_ofFormulation h.toConsistent, h.answers _ hmem es rfl,
      ask_of_knows h.toConsistent (h.knows hmem)]
  found c hc hsoft := by
    rw [← List.mem_eraseDups, ← h.constraints_eq] at hc
    refine ⟨penaltyFor c, ?_, describes_penaltyFor hsoft (h.supported c hc), ?_⟩
    · show penaltyFor c ∈ f.penalties
      rw [h.penalties_eq]
      exact List.mem_map_of_mem (List.mem_filter.2 ⟨hc, hsoft⟩)
    · rw [penalty_ofFormulation h.toConsistent, h.penalty_eq_ok hc hsoft]
      rfl
  missing name hname := by
    have hnone : f.penalty name = .error (.noPenalty name) := by
      apply h.penalty_eq_error
      intro c hc
      rw [h.constraints_eq, List.mem_eraseDups] at hc
      exact hname c hc
    rw [penalty_ofFormulation h.toConsistent, hnone]
    rfl

/-- **The memory.** After every sequence of requests to empty tables, repeated and refused ones
included, the tables hold exactly what was translated. -/
theorem askAll_memory (es : List Entity) : Memory (empty.askAll es).1 (empty.askAll es).2 := by
  have hkeep : empty.askAll es = ((Formulation.empty.askAll es).1,
      ofFormulation (Formulation.empty.askAll es).2) := askAll_ofFormulation consistent_empty es
  rw [hkeep]
  exact memory_of_remembers (remembers_askAll es)

/-- A soft constraint that comes up again is charged once. -/
example : (empty.askAll [.var Model.Sample.x, .constraint Model.Sample.high,
    .constraint Model.Sample.high]).2.penalties.map (·.constraint) = ["high"] := by
  decide

end Translator

end WeightedCsp

import Mathlib.Tactic.SplitIfs
import WeightedCsp.Instance.Basic
import WeightedCsp.Proofs.Places
import WeightedCsp.Proofs.Step

/-!
# Entries of an instance

An entry is refused or put last, and what it is refused for is read off the tables of places.  The
tables of an instance that was put together entry by entry (`Instance.Entered`) are in step with its
lists (`Instance.Indexed`), so there a refusal says what is in the lists (`addVar_eq_error`,
`addCon_eq_error`).
-/

namespace WeightedCsp.Instance

variable {i j : Instance} {x : Var} {k : Con}

/-! ### The two operations -/

/-- A variable is entered if no place is known for its name. -/
theorem addVar_apply (x : Var) (i : Instance) :
    addVar x i = if i.varPlaces.contains x.name then .error (.error (.duplicateVariable x.name)) i
      else .ok () (i.withVar x) := by
  unfold addVar
  rw [Step.get_bind_apply]
  split_ifs <;> rfl

/-- A constraint is entered if its name is new and its variables are there. -/
theorem addCon_apply (k : Con) (i : Instance) :
    addCon k i =
      if i.conPlaces.contains k.name then .error (.error (.duplicateConstraint k.name)) i
      else
        match k.varNames.find? (!i.varPlaces.contains ·) with
        | some x => .error (.error (.undeclaredVariable k.name x)) i
        | none => .ok () (i.withCon k) := by
  unfold addCon
  rw [Step.get_bind_apply]
  split_ifs
  · rfl
  · cases k.varNames.find? (!i.varPlaces.contains ·) <;> rfl

/-- A refused variable leaves the instance as it was. -/
theorem addVar_error_eq {f : Failure InstanceError} (h : addVar x i = .error f j) : j = i := by
  rw [addVar_apply] at h
  split_ifs at h
  cases h
  rfl

/-- A refused constraint leaves the instance as it was. -/
theorem addCon_error_eq {f : Failure InstanceError} (h : addCon k i = .error f j) : j = i := by
  rw [addCon_apply] at h
  split_ifs at h
  · cases h
    rfl
  · split at h
    · cases h
      rfl
    · cases h

/-! ### Tables in step -/

/-- Both tables are in step with the entries. -/
structure Indexed (i : Instance) : Prop where
  vars : i.varPlaces.Indexes (i.vars.map (·.name))
  constraints : i.conPlaces.Indexes (i.constraints.map (·.name))

/-- An instance that was put together entry by entry. -/
inductive Entered : Instance → Prop
  | empty : Entered .empty
  | addVar {i j : Instance} {x : Var} (hi : Entered i) (h : Instance.addVar x i = .ok () j) :
    Entered j
  | addCon {i j : Instance} {k : Con} (hi : Entered i) (h : Instance.addCon k i = .ok () j) :
    Entered j

/-- A new variable goes to the end, and its place with it. -/
theorem Indexed.withVar (hi : i.Indexed) (hnew : x.name ∉ i.vars.map (·.name)) :
    (i.withVar x).Indexed := by
  refine ⟨?_, hi.constraints⟩
  have htable := hi.vars.concat hnew
  rw [List.length_map] at htable
  simpa only [Instance.withVar, List.map_append, List.map_singleton] using htable

/-- A new constraint goes to the end, and its place with it. -/
theorem Indexed.withCon (hi : i.Indexed) (hnew : k.name ∉ i.constraints.map (·.name)) :
    (i.withCon k).Indexed := by
  refine ⟨hi.vars, ?_⟩
  have htable := hi.constraints.concat hnew
  rw [List.length_map] at htable
  simpa only [Instance.withCon, List.map_append, List.map_singleton] using htable

theorem withVar_ofLists (xs : List Var) (ks : List Con) (x : Var) :
    (ofLists xs ks).withVar x = ofLists (xs ++ [x]) ks := by
  simp [ofLists, Instance.withVar, Places.ofNames_concat]

theorem withCon_ofLists (xs : List Var) (ks : List Con) (k : Con) :
    (ofLists xs ks).withCon k = ofLists xs (ks ++ [k]) := by
  simp [ofLists, Instance.withCon, Places.ofNames_concat]

/-- Names that are given once have tables. -/
theorem indexed_ofLists {xs : List Var} {ks : List Con} (hxs : (xs.map (·.name)).Nodup)
    (hks : (ks.map (·.name)).Nodup) : (ofLists xs ks).Indexed :=
  ⟨Places.indexes_ofNames hxs, Places.indexes_ofNames hks⟩

/-! ### Entries that are made -/

theorem addVar_eq_ok {u : Unit} (h : addVar x i = .ok u j) :
    i.varPlaces.contains x.name = false ∧ j = i.withVar x := by
  rw [addVar_apply] at h
  split_ifs at h with htaken
  cases h
  exact ⟨by simpa using htaken, rfl⟩

theorem addCon_eq_ok {u : Unit} (h : addCon k i = .ok u j) :
    i.conPlaces.contains k.name = false ∧ (∀ n ∈ k.varNames, i.varPlaces.contains n = true) ∧
      j = i.withCon k := by
  rw [addCon_apply] at h
  split_ifs at h with htaken
  split at h
  · cases h
  · next hnone =>
    cases h
    refine ⟨by simpa using htaken, fun n hn => ?_, rfl⟩
    simpa using List.find?_eq_none.1 hnone n hn

/-- **Tables stay in step** as long as entries are made one by one. -/
theorem Entered.indexed (hi : i.Entered) : i.Indexed := by
  induction hi with
  | empty => exact ⟨Places.indexes_nil, Places.indexes_nil⟩
  | addVar _ h ih =>
    obtain ⟨hfree, rfl⟩ := addVar_eq_ok h
    refine ih.withVar fun hmem => ?_
    rw [ih.vars.contains_iff.2 hmem] at hfree
    cases hfree
  | addCon _ h ih =>
    obtain ⟨hfree, -, rfl⟩ := addCon_eq_ok h
    refine ih.withCon fun hmem => ?_
    rw [ih.constraints.contains_iff.2 hmem] at hfree
    cases hfree

namespace Indexed

/-- A variable is entered exactly if its name is new. -/
theorem addVar_eq_ok_iff (hi : i.Indexed) :
    addVar x i = .ok () j ↔ x.name ∉ i.vars.map (·.name) ∧ j = i.withVar x := by
  rw [addVar_apply, ← hi.vars.contains_iff]
  split_ifs with htaken
  · exact iff_of_false (fun h => nomatch h) fun h => h.1 htaken
  · simp [htaken, eq_comm]

/-- A constraint is entered exactly if its name is new and its variables are there. -/
theorem addCon_eq_ok_iff (hi : i.Indexed) :
    addCon k i = .ok () j ↔ k.name ∉ i.constraints.map (·.name) ∧
      (∀ n ∈ k.varNames, n ∈ i.vars.map (·.name)) ∧ j = i.withCon k := by
  simp only [← hi.vars.contains_iff, ← hi.constraints.contains_iff]
  refine ⟨fun h => ?_, fun ⟨hname, hvars, hj⟩ => ?_⟩
  · obtain ⟨hfree, hvars, hj⟩ := addCon_eq_ok h
    exact ⟨by simp [hfree], hvars, hj⟩
  · have hnone : k.varNames.find? (!i.varPlaces.contains ·) = none := by
      refine List.find?_eq_none.2 fun n hn => ?_
      simp [hvars n hn]
    rw [addCon_apply, if_neg hname, hnone, hj]

/-- A variable is refused because its name is taken. -/
theorem addVar_eq_error (hi : i.Indexed) {f : Failure InstanceError}
    (h : addVar x i = .error f j) :
    x.name ∈ i.vars.map (·.name) ∧ f = .error (.duplicateVariable x.name) := by
  rw [addVar_apply] at h
  split_ifs at h with htaken
  cases h
  exact ⟨hi.vars.contains_iff.1 htaken, rfl⟩

/-- A constraint is refused because its name is taken, or one of its variables is not there. -/
theorem addCon_eq_error (hi : i.Indexed) {f : Failure InstanceError}
    (h : addCon k i = .error f j) :
    (k.name ∈ i.constraints.map (·.name) ∧ f = .error (.duplicateConstraint k.name)) ∨
      ∃ x ∈ k.varNames, x ∉ i.vars.map (·.name) ∧ f = .error (.undeclaredVariable k.name x) := by
  rw [addCon_apply] at h
  split_ifs at h with htaken
  · cases h
    exact .inl ⟨hi.constraints.contains_iff.1 htaken, rfl⟩
  · split at h
    · next x hfind =>
      cases h
      have hunknown : ¬ i.varPlaces.contains x = true := by simpa using List.find?_some hfind
      rw [hi.vars.contains_iff] at hunknown
      exact .inr ⟨x, List.mem_of_find?_eq_some hfind, hunknown, rfl⟩
    · cases h

end Indexed

end WeightedCsp.Instance

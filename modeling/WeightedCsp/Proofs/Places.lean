import Mathlib.Data.List.Induction
import Mathlib.Data.List.Nodup
import WeightedCsp.Places

/-!
# Tables of places that are in step

A table of places is in step with a list of names if it has the place of each name and nothing else
(`Places.Indexes`).  Then no name stands twice in the list, the table never leads outside of it, and
what is found under a name is the entry of that name (`Places.Indexes.find_eq`).  An entry that is
put last, with its place in front of the table, keeps the two in step if its name is new
(`Places.Indexes.concat`).
-/

namespace WeightedCsp

/-! ### Entries with keys -/

section Keys

variable {α : Type} {key : α → String} {as bs : List α} {a : α} {name : String}

/-- An entry is found under its key if no other entry has that key. -/
theorem find?_key (hnodup : (as.map key).Nodup) (ha : a ∈ as) :
    as.find? (key · = key a) = some a := by
  cases hfind : as.find? (key · = key a) with
  | none =>
    have := List.find?_eq_none.1 hfind a ha
    simp at this
  | some b =>
    have hkey : key b = key a := by simpa using List.find?_some hfind
    rw [List.inj_on_of_nodup_map hnodup (List.mem_of_find?_eq_some hfind) ha hkey]

theorem find?_key_eq_none (h : name ∉ as.map key) : as.find? (key · = name) = none := by
  refine List.find?_eq_none.2 fun a ha heq => h ?_
  rw [← of_decide_eq_true heq]
  exact List.mem_map_of_mem ha

/-- Where names differ, something is found by its own name only. -/
theorem find?_key_eq_some (hnodup : (as.map key).Nodup) :
    as.find? (key · = name) = some a ↔ a ∈ as ∧ key a = name := by
  constructor
  · intro h
    exact ⟨List.mem_of_find?_eq_some h, by simpa using List.find?_some h⟩
  · rintro ⟨ha, rfl⟩
    exact find?_key hnodup ha

/-- A new name keeps the names different. -/
theorem nodup_map_concat (h : (as.map key).Nodup) (ha : key a ∉ as.map key) :
    ((as ++ [a]).map key).Nodup := by
  rw [List.map_append, List.map_singleton, ← List.concat_eq_append]
  exact (List.nodup_concat _ _).2 ⟨ha, h⟩

/-- In a list without repeated keys, an entry has another key than those in front of it. -/
theorem notMem_of_nodup_append (h : ((as ++ a :: bs).map key).Nodup) : key a ∉ as.map key := by
  rw [List.map_append, List.map_cons, List.nodup_middle] at h
  exact fun hmem => (List.nodup_cons.1 h).1 (List.mem_append_left _ hmem)

end Keys

namespace Places

/-! ### Tables in step -/

/-- The table has the place of each name, and nothing else. -/
def Indexes (places : Places) (names : List String) : Prop :=
  ∀ name place, places.lookup name = some place ↔ names[place]? = some name

variable {places : Places} {names : List String} {name : String}

theorem indexes_nil : Indexes [] [] := by
  intro name place
  simp

/-- A name that is in step with a table stands at one place only. -/
theorem Indexes.nodup (h : Indexes places names) : names.Nodup := by
  refine List.nodup_iff_injective_getElem.2 fun i j heq => ?_
  have hi := (h _ _).2 (List.getElem?_eq_getElem i.2)
  have hj := (h _ _).2 (List.getElem?_eq_getElem j.2)
  dsimp only at heq
  rw [heq, hj] at hi
  exact Fin.ext (Option.some.inj hi).symm

/-- No place is known for other names. -/
theorem Indexes.lookup_eq_none_iff (h : Indexes places names) :
    places.lookup name = none ↔ name ∉ names := by
  rw [List.mem_iff_getElem?, ← not_iff_not, not_not, ← ne_eq, Option.ne_none_iff_exists']
  exact exists_congr fun place => h name place

/-- A place is known for each name. -/
theorem Indexes.contains_iff (h : Indexes places names) :
    places.contains name = true ↔ name ∈ names := by
  rw [contains, Option.isSome_iff_ne_none, ne_eq, h.lookup_eq_none_iff, not_not]

/-- **Adding a name** that is new, with the place behind the others, keeps a table in step. -/
theorem Indexes.concat (h : Indexes places names) (hnew : name ∉ names) :
    Indexes ((name, names.length) :: places) (names ++ [name]) := by
  intro other place
  rw [List.lookup_cons]
  by_cases heq : other = name
  · subst heq
    -- The name is at its new place, and at none of the old ones.
    simp only [beq_self_eq_true, Option.some.injEq]
    constructor
    · rintro rfl
      simp
    · intro hplace
      rcases Nat.lt_trichotomy place names.length with hlt | heq | hgt
      · rw [List.getElem?_append_left hlt] at hplace
        exact absurd (List.mem_of_getElem? hplace) hnew
      · exact heq.symm
      · rw [List.getElem?_eq_none (by simp; omega)] at hplace
        cases hplace
  · have hbeq : (other == name) = false := by simpa using heq
    rw [hbeq]
    dsimp only
    rw [h other place]
    -- Another name is not at the new place.
    rcases Nat.lt_trichotomy place names.length with hlt | rfl | hgt
    · rw [List.getElem?_append_left hlt]
    · simp [Ne.symm heq]
    · rw [List.getElem?_eq_none (by omega), List.getElem?_eq_none (by simp; omega)]

theorem ofNames_concat (names : List String) (name : String) :
    ofNames (names ++ [name]) = (name, names.length) :: ofNames names := by
  simp [ofNames, List.zipIdx_append]

/-- Names that are given once have a table. -/
theorem indexes_ofNames (h : names.Nodup) : Indexes (ofNames names) names := by
  induction names using List.reverseRecOn with
  | nil => exact indexes_nil
  | append_singleton names name ih =>
    obtain ⟨hnames, -, hdisj⟩ := List.nodup_append.1 h
    have hnew : name ∉ names := fun hmem => hdisj name hmem name (by simp) rfl
    rw [ofNames_concat]
    exact (ih hnames).concat hnew

/-- **Look-ups.** A table in step leads to the entry of a name, and never outside of the list. -/
theorem Indexes.find_eq {α : Type} {key : α → String} {entries : List α}
    (h : Indexes places (entries.map key)) (name : String) :
    places.find entries name = .ok (entries.find? (key · = name)) := by
  unfold find
  cases hplace : places.lookup name with
  | none =>
    rw [find?_key_eq_none (h.lookup_eq_none_iff.1 hplace)]
    rfl
  | some place =>
    have hname := (h name place).1 hplace
    rw [List.getElem?_map, Option.map_eq_some_iff] at hname
    obtain ⟨a, ha, rfl⟩ := hname
    rw [find?_key h.nodup (List.mem_of_getElem? ha)]
    simp only [Checked.entry, ha]
    rfl

end Places

end WeightedCsp

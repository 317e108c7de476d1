/-!
# Strictly ascending lists of integers

A finite set of integers is kept as the list of its elements in strictly ascending order.
`Ascending.ofList` brings any list into that form: it sorts and then drops every element that
equals its successor.
-/

namespace WeightedCsp.Ascending

/-- Drops every element that equals the next one. -/
def squeeze : List Int → List Int
  | [] => []
  | [a] => [a]
  | a :: b :: r => if a = b then squeeze (b :: r) else a :: squeeze (b :: r)

/-- The elements of a list, each once, in ascending order. -/
def ofList (xs : List Int) : List Int := squeeze (xs.mergeSort (· ≤ ·))

/-- The integers from `lb` to `ub`. -/
def range (lb ub : Int) : List Int := (List.range (ub - lb + 1).toNat).map fun (i : Nat) => lb + i

@[simp]
theorem mem_squeeze (x : Int) (xs : List Int) : x ∈ squeeze xs ↔ x ∈ xs := by
  fun_induction squeeze xs with
  | case1 => simp
  | case2 => simp
  | case3 b r ih => simp_all
  | case4 a b r h ih => simp_all

theorem pairwise_squeeze {xs : List Int} (h : xs.Pairwise (· ≤ ·)) :
    (squeeze xs).Pairwise (· < ·) := by
  fun_induction squeeze xs with
  | case1 => simp
  | case2 => simp
  | case3 b r ih => exact ih (List.pairwise_cons.1 h).2
  | case4 a b r hab ih =>
    obtain ⟨ha, hr⟩ := List.pairwise_cons.1 h
    refine List.pairwise_cons.2 ⟨fun y hy => ?_, ih hr⟩
    have hy' : y ∈ b :: r := (mem_squeeze y (b :: r)).1 hy
    have hb : b ≤ y := by
      rcases List.mem_cons.1 hy' with rfl | hyr
      · exact Int.le_refl _
      · exact (List.pairwise_cons.1 hr).1 y hyr
    have := ha b (by simp)
    omega

@[simp]
theorem mem_ofList (x : Int) (xs : List Int) : x ∈ ofList xs ↔ x ∈ xs := by
  simp [ofList]

theorem pairwise_ofList (xs : List Int) : (ofList xs).Pairwise (· < ·) := by
  refine pairwise_squeeze ?_
  have h : (xs.mergeSort fun a b => decide (a ≤ b)).Pairwise fun a b => decide (a ≤ b) :=
    List.pairwise_mergeSort (by intro a b c; simp; omega) (by intro a b; simp; omega) xs
  simpa using h

theorem ofList_ne_nil {xs : List Int} (h : xs ≠ []) : ofList xs ≠ [] := by
  obtain ⟨x, hx⟩ := List.exists_mem_of_ne_nil xs h
  exact List.ne_nil_of_mem ((mem_ofList x xs).2 hx)

@[simp]
theorem mem_range (x lb ub : Int) : x ∈ range lb ub ↔ lb ≤ x ∧ x ≤ ub := by
  simp only [range, List.mem_map, List.mem_range]
  constructor
  · rintro ⟨i, hi, rfl⟩
    omega
  · rintro ⟨h1, h2⟩
    exact ⟨(x - lb).toNat, by omega, by omega⟩

theorem pairwise_range (lb ub : Int) : (range lb ub).Pairwise (· < ·) := by
  simp only [range, List.pairwise_map]
  exact List.pairwise_lt_range.imp fun h => by omega

end WeightedCsp.Ascending

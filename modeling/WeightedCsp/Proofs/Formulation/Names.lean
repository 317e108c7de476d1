import Mathlib.Tactic.SplitIfs
import WeightedCsp.Formulation.Names
import WeightedCsp.Variable

/-!
# Auxiliary names are told apart

An auxiliary variable is named by what it stands for (`Aux`).  Two of them have different names
(`Aux.name_injective`), and none has the name of a variable of the model, provided that no variable
begins like a penalty: the indicator of `P__c` at `5` is named like the penalty of `c__5`.

The number of underscores separates the sums of penalties from the rest.  Among the rest, the
character after the first two underscores in a row is a letter for a penalty, and a digit or a sign
for an indicator whose variable ends there.
-/

namespace WeightedCsp

/-! ### Characters -/

namespace Identifier

theorem not_isLetter_underscore : isLetter '_' = false := by decide

theorem not_isLetter_of_isDigit {c : Char} (h : c.isDigit) : isLetter c = false := by
  simp only [Char.isDigit, ge_iff_le, Bool.and_eq_true, decide_eq_true_eq, isLetter,
    Bool.or_eq_false_iff, Bool.and_eq_false_iff, decide_eq_false_iff_not, Char.le_def,
    UInt32.le_iff_toNat_le] at h ⊢
  have h9 : '9'.val.toNat = 57 := rfl
  have hA : 'A'.val.toNat = 65 := rfl
  have ha : 'a'.val.toNat = 97 := rfl
  exact ⟨.inl (by omega), .inl (by omega)⟩

/-- A valid name starts with a letter. -/
theorem isValid_cons {name : String} (h : isValid name) :
    ∃ c cs, name.toList = c :: cs ∧ isLetter c := by
  unfold isValid at h
  cases hname : name.toList with
  | nil => simp [hname, isValidList] at h
  | cons c cs =>
    rw [hname, isValidList, Bool.and_eq_true] at h
    exact ⟨c, cs, rfl, h.1⟩

/-- A valid name has word characters only. -/
theorem isWordChar_of_isValid {name : String} (h : isValid name = true) :
    ∀ c ∈ name.toList, isWordChar c = true := by
  unfold isValid at h
  cases hname : name.toList with
  | nil => simp
  | cons c cs =>
    rw [hname, isValidList, Bool.and_eq_true, List.all_eq_true] at h
    refine List.forall_mem_cons.2 ⟨?_, h.2⟩
    simp [isWordChar, h.1]

end Identifier

namespace Names

/-! ### Numbers -/

/-- A number is written with its digits, after a sign if it is negative. -/
theorem toList_repr (k : Int) :
    k.repr.toList = if 0 ≤ k then Nat.toDigits 10 k.toNat
      else '-' :: Nat.toDigits 10 (-k).toNat := by
  rw [Int.repr_eq_if]
  by_cases hk : 0 ≤ k
  · simp [hk]
  · simp [hk, String.toList_append]

/-- No number is written with an underscore. -/
theorem underscore_notMem_repr (k : Int) : '_' ∉ k.repr.toList := by
  rw [toList_repr]
  split_ifs
  · simp
  · simp

theorem isDigit_head_toDigits {n : Nat} {c : Char} {cs : List Char}
    (h : Nat.toDigits 10 n = c :: cs) : c.isDigit :=
  Nat.isDigit_of_mem_toDigits (b := 10) (n := n) (by decide) (by decide) (by rw [h]; simp)

/-- No number starts with a letter. -/
theorem head_repr_not_isLetter {k : Int} {c : Char} {cs : List Char}
    (h : k.repr.toList = c :: cs) : Identifier.isLetter c = false := by
  rw [toList_repr] at h
  split_ifs at h
  · exact Identifier.not_isLetter_of_isDigit (isDigit_head_toDigits h)
  · obtain ⟨rfl, -⟩ := List.cons_eq_cons.1 h
    decide

theorem toDigits_injective {m n : Nat} (h : Nat.toDigits 10 m = Nat.toDigits 10 n) : m = n := by
  have hnum := congrArg (fun ds => Nat.ofDigitChars 10 ds 0) h
  simpa using hnum

/-- Different integers are written differently. -/
theorem repr_injective {j k : Int} (h : j.repr.toList = k.repr.toList) : j = k := by
  rw [toList_repr, toList_repr] at h
  split_ifs at h with hj hk hk
  · have := toDigits_injective h
    omega
  · have := isDigit_head_toDigits h
    simp at this
  · have := isDigit_head_toDigits h.symm
    simp at this
  · have := toDigits_injective (List.cons_eq_cons.1 h).2
    omega

theorem toList_pushn (s : String) (c : Char) (n : Nat) :
    (s.pushn c n).toList = s.toList ++ List.replicate n c := by
  rw [String.pushn_eq_repeat_push]
  induction n with
  | zero => simp [Nat.repeat]
  | succ n ih => rw [Nat.repeat, String.toList_push, ih, List.replicate_succ', List.append_assoc]

/-- A padded number is its digits after zeros. -/
theorem toList_padded (width n : Nat) :
    (Decimal.padded width n).toList =
      List.replicate (width - n.repr.length) '0' ++ Nat.toDigits 10 n := by
  simp [Decimal.padded, String.toList_append, toList_pushn]

theorem underscore_notMem_padded (width n : Nat) : '_' ∉ (Decimal.padded width n).toList := by
  simp [toList_padded, List.mem_replicate]

/-- Different numbers are padded differently. -/
theorem padded_injective {width m n : Nat} (h : Decimal.padded width m = Decimal.padded width n) :
    m = n := by
  have hlist := congrArg String.toList h
  rw [toList_padded, toList_padded] at hlist
  have hnum := congrArg (fun ds => Nat.ofDigitChars 10 ds 0) hlist
  simpa [Nat.ofDigitChars_append] using hnum

/-- A padded number is as long as it should be, or longer. -/
theorem length_padded (width n : Nat) : width ≤ (Decimal.padded width n).toList.length := by
  have h : (Nat.toDigits 10 n).length = n.repr.length := by
    rw [← Nat.toList_repr, String.length_toList]
  rw [toList_padded, List.length_append, List.length_replicate, h]
  omega

/-! ### What an auxiliary variable stands for -/

/-- The beginnings that no variable of a model may have, since penalties have them. -/
def reserved : List (List Char) := [['P', '_', '_'], ['P', '1', '_', '_'], ['P', '2', '_', '_']]

/-- The name begins like a penalty. -/
def isReserved (name : String) : Bool := reserved.any (·.isPrefixOf name.toList)

/-- What an auxiliary variable stands for. -/
inductive Aux where
  /-- A variable takes a value. -/
  | indicator (var : String) (value : Int)
  /-- The violation of a soft constraint. -/
  | penalty (constraint : String)
  /-- What an equation falls short by. -/
  | deficit (constraint : String)
  /-- What an equation goes beyond by. -/
  | surplus (constraint : String)
  /-- The weighted sum of all penalties. -/
  | objective
  /-- The sum of the penalties of a price. -/
  | tier (price : Nat)
  /-- The sum of the penalties of the highest price. -/
  | heaviest
  /-- The weighted sum of the penalties of the lower prices. -/
  | lighter
  /-- The sum of the penalties of one of the lower prices. -/
  | lighterTier (price : Nat)

namespace Aux

/-- The name of the auxiliary variable. -/
def name : Aux → String
  | indicator var value => Names.indicator var value
  | penalty c => Names.penalty c
  | deficit c => Names.deficit c
  | surplus c => Names.surplus c
  | objective => Names.objective
  | tier price => Names.tier price
  | heaviest => Names.heaviest
  | lighter => Names.lighter
  | lighterTier price => Names.lighterTier price

/-- The variable or constraint is named as in a model. -/
def Valid : Aux → Prop
  | indicator var _ => Identifier.isValid var ∧ isReserved var = false
  | penalty c => Identifier.isValid c
  | deficit c => Identifier.isValid c
  | surplus c => Identifier.isValid c
  | objective => True
  | tier _ => True
  | heaviest => True
  | lighter => True
  | lighterTier _ => True

/-- The kind of a name, read off its characters. -/
def kindOf (s : List Char) : Nat :=
  if s.count '_' = 1 then
    if s.length = 2 then 4
    else if s = ['_', 'P', '1'] then 5
    else if s = ['_', 'P', '2'] then 6
    else 7
  else if s.count '_' = 2 then 8
  else
    match s with
    | '_' :: 'P' :: '_' :: '_' :: c :: _ => if Identifier.isLetter c then 1 else 0
    | '_' :: 'P' :: '1' :: '_' :: '_' :: c :: _ => if Identifier.isLetter c then 2 else 0
    | '_' :: 'P' :: '2' :: '_' :: '_' :: c :: _ => if Identifier.isLetter c then 3 else 0
    | _ => 0

/-- The kind of an auxiliary variable. -/
def kind : Aux → Nat
  | indicator _ _ => 0
  | penalty _ => 1
  | deficit _ => 2
  | surplus _ => 3
  | objective => 4
  | heaviest => 5
  | lighter => 6
  | tier _ => 7
  | lighterTier _ => 8

/-- A penalty goes on with a letter where an indicator does not. -/
theorem append_ne_of_not_isReserved {p var r t : List Char} {c : Char} (hp : p ∈ reserved)
    (hc : Identifier.isLetter c) (hvar : var ≠ []) (hpre : ¬ p <+: var)
    (hr : ∀ d ds, r = d :: ds → Identifier.isLetter d = false) :
    p ++ c :: t ≠ var ++ '_' :: '_' :: r := by
  intro h
  rcases List.append_eq_append_iff.1 h with ⟨rest, rfl, -⟩ | ⟨rest, hrest, htail⟩
  · exact hpre (List.prefix_append _ _)
  -- The variable ends inside `p`, so the two underscores are those of `p`.
  rcases rest with _ | ⟨x, _ | ⟨y, rest⟩⟩
  · obtain ⟨rfl, -⟩ := List.cons_eq_cons.1 htail
    simp [Identifier.not_isLetter_underscore] at hc
  · simp only [List.cons_append, List.nil_append, List.cons.injEq] at htail
    obtain ⟨-, rfl, -⟩ := htail
    simp [Identifier.not_isLetter_underscore] at hc
  · simp only [List.cons_append, List.cons.injEq] at htail
    obtain ⟨rfl, rfl, hr'⟩ := htail
    rcases rest with _ | ⟨z, rest⟩
    · rw [hr c t hr'] at hc
      cases hc
    · rcases var with _ | ⟨a, _ | ⟨b, var⟩⟩
      · exact hvar rfl
      · simp only [reserved, List.mem_cons, List.not_mem_nil, or_false] at hp
        rcases hp with rfl | rfl | rfl <;> simp at hrest
      · have hshort : p.length ≤ 4 := by
          simp only [reserved, List.mem_cons, List.not_mem_nil, or_false] at hp
          rcases hp with rfl | rfl | rfl <;> simp
        rw [hrest] at hshort
        simp only [List.length_append, List.length_cons] at hshort
        omega

/-- A separator between parts without underscores is found in one place only. -/
theorem eq_nil_of_underscores {w r s : List Char}
    (h : '_' :: '_' :: r = w ++ '_' :: '_' :: s) (hr : '_' ∉ r) : w = [] ∧ r = s := by
  rcases w with _ | ⟨x, _ | ⟨y, w⟩⟩
  · simpa using h
  · simp only [List.cons_append, List.nil_append, List.cons.injEq] at h
    exact absurd (by simp [h.2.2]) hr
  · simp only [List.cons_append, List.cons.injEq] at h
    exact absurd (by simp [h.2.2]) hr

/-- The last two underscores in a row split the name of an indicator. -/
theorem split_last {u v r s : List Char} (h : u ++ '_' :: '_' :: r = v ++ '_' :: '_' :: s)
    (hr : '_' ∉ r) (hs : '_' ∉ s) : u = v ∧ r = s := by
  rcases List.append_eq_append_iff.1 h with ⟨w, rfl, hw⟩ | ⟨w, rfl, hw⟩
  · obtain ⟨rfl, rfl⟩ := eq_nil_of_underscores hw hr
    simp
  · obtain ⟨rfl, rfl⟩ := eq_nil_of_underscores hw hs
    simp

/-- An indicator goes on with a digit or a sign where a penalty goes on with a letter. -/
theorem kindOf_indicator {var : String} (hvalid : Identifier.isValid var)
    (hreserved : isReserved var = false) (value : Int) :
    kindOf (indicator var value).name.toList = 0 := by
  obtain ⟨c, cs, hvar, -⟩ := Identifier.isValid_cons hvalid
  have hname : (indicator var value).name.toList =
      '_' :: (var.toList ++ '_' :: '_' :: value.repr.toList) := by
    simp [name, Names.indicator, String.toList_append]
  -- One underscore is at the beginning, and two are before the value.
  have hcount : 3 ≤ List.count '_' (indicator var value).name.toList := by
    simp [hname]
    omega
  have hnext : ∀ p ∈ reserved, ∀ d t,
      '_' :: (var.toList ++ '_' :: '_' :: value.repr.toList) = '_' :: (p ++ d :: t) →
        ¬Identifier.isLetter d := by
    intro p hp d t heq hd
    have hpre : ¬p <+: var.toList := fun hpre =>
      List.any_eq_false.1 hreserved p hp (List.isPrefixOf_iff_prefix.2 hpre)
    exact append_ne_of_not_isReserved hp hd (by simp [hvar]) hpre
      (fun _ _ => head_repr_not_isLetter) (List.cons_eq_cons.1 heq).2.symm
  unfold kindOf
  rw [if_neg (by omega), if_neg (by omega), hname]
  split
  · next d t heq => rw [if_neg (hnext ['P', '_', '_'] (by simp [reserved]) d t heq)]
  · next d t heq => rw [if_neg (hnext ['P', '1', '_', '_'] (by simp [reserved]) d t heq)]
  · next d t heq => rw [if_neg (hnext ['P', '2', '_', '_'] (by simp [reserved]) d t heq)]
  · rfl

/-- The three digits of a price are more than the one character of the other sums. -/
theorem kindOf_tier (price : Nat) : kindOf (tier price).name.toList = 7 := by
  have hlen := length_padded 3 price
  have hcount := List.count_eq_zero.2 (underscore_notMem_padded 3 price)
  have hname : (tier price).name.toList = '_' :: 'P' :: (Decimal.padded 3 price).toList := by
    simp [name, Names.tier, String.toList_append]
  rw [hname]
  generalize (Decimal.padded 3 price).toList = digits at hlen hcount
  have htwo : ('_' :: 'P' :: digits).length ≠ 2 := by
    simp only [List.length_cons]
    omega
  have hthree : ∀ c, '_' :: 'P' :: digits ≠ ['_', 'P', c] := by
    intro c heq
    rw [(List.cons_eq_cons.1 (List.cons_eq_cons.1 heq).2).2] at hlen
    simp at hlen
  simp only [kindOf, htwo, hthree, hcount, List.count_cons, ↓reduceIte]
  rfl

/-- The kind of an auxiliary name can be read off the name. -/
theorem kindOf_name {a : Aux} (h : a.Valid) : kindOf a.name.toList = a.kind := by
  cases a with
  | indicator var value => exact kindOf_indicator h.1 h.2 value
  | penalty c =>
    obtain ⟨d, ds, hchars, hd⟩ := Identifier.isValid_cons h
    simp [name, Names.penalty, String.toList_append, hchars, kindOf, kind, hd]
  | deficit c =>
    obtain ⟨d, ds, hchars, hd⟩ := Identifier.isValid_cons h
    simp [name, Names.deficit, String.toList_append, hchars, kindOf, kind, hd]
  | surplus c =>
    obtain ⟨d, ds, hchars, hd⟩ := Identifier.isValid_cons h
    simp [name, Names.surplus, String.toList_append, hchars, kindOf, kind, hd]
  | objective => rfl
  | heaviest => rfl
  | lighter => rfl
  | tier price => exact kindOf_tier price
  | lighterTier price =>
    have hcount := List.count_eq_zero.2 (underscore_notMem_padded 3 price)
    simp [name, Names.lighterTier, String.toList_append, kindOf, kind, hcount]

/-- **Auxiliary names are told apart.** -/
theorem name_injective {a b : Aux} (ha : a.Valid) (hb : b.Valid) (h : a.name = b.name) :
    a = b := by
  have hkind : a.kind = b.kind := by rw [← kindOf_name ha, ← kindOf_name hb, h]
  have hlist := congrArg String.toList h
  -- Names of one kind begin alike, so what follows is the same.
  cases a with
  | indicator var value =>
    cases b <;> try cases hkind
    next var' value' =>
      simp only [name, Names.indicator, String.toList_append, List.append_assoc] at hlist
      have hsplit := List.append_cancel_left hlist
      obtain ⟨hvar, hvalue⟩ := split_last hsplit (underscore_notMem_repr _)
        (underscore_notMem_repr _)
      rw [String.toList_injective hvar, repr_injective hvalue]
  | penalty c =>
    cases b <;> try cases hkind
    simp only [name, Names.penalty, String.toList_append] at hlist
    rw [String.toList_injective (List.append_cancel_left hlist)]
  | deficit c =>
    cases b <;> try cases hkind
    simp only [name, Names.deficit, String.toList_append] at hlist
    rw [String.toList_injective (List.append_cancel_left hlist)]
  | surplus c =>
    cases b <;> try cases hkind
    simp only [name, Names.surplus, String.toList_append] at hlist
    rw [String.toList_injective (List.append_cancel_left hlist)]
  | objective =>
    cases b <;> try cases hkind
    rfl
  | heaviest =>
    cases b <;> try cases hkind
    rfl
  | lighter =>
    cases b <;> try cases hkind
    rfl
  | tier price =>
    cases b <;> try cases hkind
    simp only [name, Names.tier, String.toList_append] at hlist
    rw [padded_injective (String.toList_injective (List.append_cancel_left hlist))]
  | lighterTier price =>
    cases b <;> try cases hkind
    simp only [name, Names.lighterTier, String.toList_append] at hlist
    rw [padded_injective (String.toList_injective (List.append_cancel_left hlist))]

/-- No auxiliary name is an identifier. -/
theorem not_isValid_name (a : Aux) : Identifier.isValid a.name = false := by
  have hhead : ∃ cs, a.name.toList = '_' :: cs := by
    cases a <;> exact ⟨_, by
      simp only [name, Names.indicator, Names.penalty, Names.deficit, Names.surplus,
        Names.objective, Names.tier, Names.heaviest, Names.lighter, Names.lighterTier,
        String.toList_append]
      rfl⟩
  obtain ⟨cs, hcs⟩ := hhead
  simp [Identifier.isValid, hcs, Identifier.isValidList, Identifier.not_isLetter_underscore]

end Aux

end Names

end WeightedCsp

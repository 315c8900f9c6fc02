import InterviewQuestions.Library.Rearrangement
import Mathlib.Algebra.Order.Group.Int
import Mathlib.Data.List.Induction

/-! `next_perm` of `arrays_strings/next_permutation/solution.cpp` and `next_smallest` of
`arrays_strings/next_smallest/solution.c`. There is no result where an index is out of range. -/
namespace InterviewQuestions.NextPermutation

open Library

/-- The first loop of both. It goes down while the element before the index and the one at the
index stay in order. -/
def scanPairs (ordered : ℤ → ℤ → Bool) (array : List ℤ) : ℕ → Option ℕ
  | 0 => some 0
  | i + 1 => do
      let x ← array[i]?
      let y ← array[i + 1]?
      if ordered x y then scanPairs ordered array i else return i + 1

/-- The second loop of both, at index `j - 1`. Nothing stops it before the first element. -/
def scan (goesOn : ℤ → Bool) (array : List ℤ) : ℕ → Option ℕ
  | 0 => none
  | j + 1 => do
      let x ← array[j]?
      if goesOn x then scan goesOn array j else return j

/-! ## `next_perm` -/

namespace NextPerm

/-- `i` after the first loop -/
def pivot (array : List ℤ) : Option ℕ :=
  scanPairs (fun x y => y ≤ x) array (array.length - 1)

/-- `j` after the second loop -/
def partner (array : List ℤ) (i : ℕ) : Option ℕ := do
  let x ← array[i]?
  scan (fun y => y ≤ x) array array.length

/-- The array after the call, and what is returned. -/
def nextPerm (array : List ℤ) : Option (List ℤ × Bool) :=
  if array.length ≤ 1 then some (array, false)
  else do
    let i ← pivot array
    if i = 0 then return (array, false)
    else
      let i := i - 1
      let j ← partner array i
      let array ← swap array i j
      return (array.take (i + 1) ++ (array.drop (i + 1)).reverse, true)

end NextPerm

/-! ## `next_smallest` -/

namespace NextSmallest

/-- The loop, with `fuel` iterations at most. -/
def reverseLoop : ℕ → ℕ → ℕ → List ℤ → Option (List ℤ)
  | 0, _, _, _ => none
  | fuel + 1, i, j, arr =>
      if i < j then do
        let arr ← swap arr i j
        reverseLoop fuel (i + 1) (j - 1) arr
      else some arr

def reverse (arr : List ℤ) : Option (List ℤ) :=
  if arr.length = 0 then some arr else reverseLoop arr.length 0 (arr.length - 1) arr

/-- `k`, the index of the first element of the pair that ends the loop -/
def pivot (arr : List ℤ) : Option ℤ :=
  (scanPairs (fun x y => x ≤ y) arr (arr.length - 1)).map fun i => i - 1

/-- `l` -/
def partner (arr : List ℤ) (k : ℕ) : Option ℕ := do
  let x ← arr[k]?
  scan (fun y => x ≤ y) arr arr.length

/-- The array after the call, and what is returned. -/
def nextSmallest (arr : List ℤ) : Option (List ℤ × ℤ) :=
  if arr.length ≤ 1 then some (arr, 0)
  else do
    let k ← pivot arr
    if k = -1 then return (arr, 0)
    else
      let k := k.toNat
      let l ← partner arr k
      let arr ← swap arr k l
      let rest ← reverse (arr.drop (k + 1))
      return (arr.take (k + 1) ++ rest, 1)

end NextSmallest

/-! Both functions go to the neighbour of the array in the lexicographic order of its
rearrangements. -/

/-! ## The loops -/

variable {ordered : ℤ → ℤ → Bool}

theorem scanPairs_ordered {array : List ℤ} {i : ℕ} {x y : ℤ} (hx : array[i]? = some x)
    (hy : array[i + 1]? = some y) (h : ordered x y = true) :
    scanPairs ordered array (i + 1) = scanPairs ordered array i := by
  rw [scanPairs, hx, hy]
  exact if_pos h

theorem scanPairs_start {array : List ℤ} (h : array.Pairwise fun a b => ordered a b = true)
    (i : ℕ) (hi : i < array.length) : scanPairs ordered array i = some 0 := by
  induction i with
  | zero => rfl
  | succ i ih =>
    have hpair := List.pairwise_iff_getElem.mp h i (i + 1) (by omega) hi (Nat.lt_succ_self i)
    rw [scanPairs_ordered (List.getElem?_eq_getElem (by omega)) (List.getElem?_eq_getElem hi) hpair]
    exact ih (by omega)

theorem scanPairs_pivot (front : List ℤ) {x y : ℤ} {rest : List ℤ} (hxy : ordered x y = false)
    (h : (y :: rest).Pairwise fun a b => ordered a b = true) (i : ℕ) (hi : i < (y :: rest).length) :
    scanPairs ordered (front ++ x :: y :: rest) (front.length + 1 + i) =
      some (front.length + 1) := by
  have hat (j : ℕ) (hj : j < (y :: rest).length) :
      (front ++ x :: y :: rest)[front.length + 1 + j]? = some (y :: rest)[j] := by
    rw [List.getElem?_append_right (by omega),
      show front.length + 1 + j - front.length = j + 1 by omega, List.getElem?_cons_succ]
    exact List.getElem?_eq_getElem hj
  induction i with
  | zero =>
    rw [Nat.add_zero, scanPairs, getElem?_append_cons]
    simp [hxy]
  | succ i ih =>
    have hpair := List.pairwise_iff_getElem.mp h i (i + 1) (by omega) hi (Nat.lt_succ_self i)
    rw [← Nat.add_assoc, scanPairs_ordered (hat i (by omega)) (hat (i + 1) hi) hpair]
    exact ih (by omega)

/-- The loop ends at the last element that does not let it go on. -/
theorem scan_last {goesOn : ℤ → Bool} (front : List ℤ) {y : ℤ} (right : List ℤ)
    (hy : goesOn y = false) (hright : ∀ z ∈ right, goesOn z = true) (rest : List ℤ) :
    scan goesOn (front ++ y :: (right ++ rest)) (front.length + 1 + right.length) =
      some front.length := by
  induction right using List.reverseRecOn generalizing rest with
  | nil =>
    rw [List.length_nil, Nat.add_zero, scan, getElem?_append_cons]
    simp [hy]
  | append_singleton right z ih =>
    have hz :
        (front ++ y :: (right ++ [z] ++ rest))[front.length + 1 + right.length]? = some z := by
      have hat := getElem?_append_cons (front ++ y :: right) z rest
      simp only [List.append_assoc, List.cons_append, List.length_append, List.length_cons,
        List.nil_append, Nat.add_assoc, Nat.add_comm 1] at hat ⊢
      exact hat
    rw [List.length_append, List.length_singleton, ← Nat.add_assoc, scan, hz, List.append_assoc]
    have hon : goesOn z = true := hright z (by simp)
    simp only [Option.bind_eq_bind, Option.bind_some, hon, if_true]
    exact ih (fun w hw => hright w (List.mem_append_left _ hw)) _

/-! ## `reverse` -/

namespace NextSmallest

theorem reverseLoop_eq (middle front back : List ℤ) (fuel : ℕ) (hfuel : middle.length < 2 * fuel) :
    reverseLoop fuel front.length (front.length + middle.length - 1) (front ++ (middle ++ back)) =
      some (front ++ (middle.reverse ++ back)) := by
  induction middle using List.bidirectionalRec generalizing front back fuel with
  | nil =>
    obtain ⟨fuel, rfl⟩ := Nat.exists_eq_succ_of_ne_zero (by omega : fuel ≠ 0)
    rw [reverseLoop]
    exact if_neg (by simp)
  | singleton x =>
    obtain ⟨fuel, rfl⟩ := Nat.exists_eq_succ_of_ne_zero (by omega : fuel ≠ 0)
    rw [reverseLoop]
    exact if_neg (by simp)
  | cons_append x middle y ih =>
    obtain ⟨fuel, rfl⟩ := Nat.exists_eq_succ_of_ne_zero (by omega : fuel ≠ 0)
    have hlen : front.length + (x :: (middle ++ [y])).length - 1 =
        front.length + 1 + middle.length := by
      simp only [List.length_cons, List.length_append, List.length_nil]
      omega
    have hmiddle : (front ++ [y]).length + middle.length - 1 =
        front.length + 1 + middle.length - 1 := by
      rw [List.length_append, List.length_singleton]
    have hrec := ih (front ++ [y]) (x :: back) fuel
      (by simp only [List.length_cons, List.length_append, List.length_nil] at hfuel; omega)
    rw [hmiddle] at hrec
    have hswap := swap_apart front middle back x y
    simp only [List.length_append, List.length_singleton, List.append_assoc, List.cons_append,
      List.nil_append] at hrec ⊢
    rw [reverseLoop, hlen, if_pos (by omega)]
    simp only [hswap, Option.bind_eq_bind, Option.bind_some, hrec]
    simp

theorem reverse_eq (arr : List ℤ) : reverse arr = some arr.reverse := by
  unfold reverse
  by_cases hempty : arr.length = 0
  · rw [if_pos hempty, List.length_eq_zero_iff.mp hempty]
    rfl
  · rw [if_neg hempty]
    have hloop := reverseLoop_eq arr [] [] arr.length (by omega)
    simp only [List.length_nil, Nat.zero_add, List.nil_append, List.append_nil] at hloop
    exact hloop

end NextSmallest

/-! ## Where the loops end -/

section Pivots

variable {r : ℤ → ℤ → Prop} {front left right : List ℤ} {x y : ℤ}

theorem scan_pivots {goesOn : ℤ → Bool} (h : Pivots r x y left right)
    (hgoesOn : ∀ z, goesOn z = true ↔ ¬ r x z) :
    scan goesOn (front ++ x :: (left ++ y :: right)) (front ++ x :: (left ++ y :: right)).length =
      some (front.length + 1 + left.length) := by
  have hy : goesOn y = false := by
    rw [← Bool.not_eq_true, hgoesOn, not_not]
    exact h.rises
  have hscan := scan_last (front ++ x :: left) right hy
    (fun z hz => (hgoesOn z).mpr (h.rest z hz)) []
  simp only [List.append_nil, List.append_assoc, List.cons_append, List.length_append,
    List.length_cons] at hscan ⊢
  have hend : front.length + (left.length + 1) = front.length + 1 + left.length := by omega
  have hstart : front.length + (left.length + (right.length + 1) + 1) =
      front.length + (left.length + 1) + 1 + right.length := by omega
  rw [hstart, hscan, hend]

theorem scanPairs_pivots [IsStrictTotalOrder ℤ r] (h : Pivots r x y left right)
    (hordered : ∀ a b, ordered a b = true ↔ ¬ r a b) :
    scanPairs ordered (front ++ x :: (left ++ y :: right))
      ((front ++ x :: (left ++ y :: right)).length - 1) = some (front.length + 1) := by
  have hlen : (front ++ x :: (left ++ y :: right)).length - 1 =
      front.length + 1 + (left.length + right.length) := by
    simp only [List.length_append, List.length_cons]
    omega
  have hdesc := h.descending.imp fun hab => (hordered _ _).mpr hab
  rw [hlen]
  cases left with
  | nil =>
    have hxy : ordered x y = false := by
      rw [← Bool.not_eq_true, hordered, not_not]
      exact h.rises
    exact scanPairs_pivot front hxy hdesc _ (by simp)
  | cons z left =>
    have hzy : ¬ r z y := (List.pairwise_cons.mp h.descending).1 y (by simp)
    have hxz : ordered x z = false := by
      rw [← Bool.not_eq_true, hordered, not_not]
      rcases trichotomous_of r x z with hlt | heq | hgt
      · exact hlt
      · exact absurd (heq ▸ h.rises) hzy
      · exact absurd (trans_of r hgt h.rises) hzy
    exact scanPairs_pivot front hxz hdesc _ (by simp; omega)

end Pivots

theorem take_length_succ (front : List ℤ) (x : ℤ) (rest : List ℤ) :
    (front ++ x :: rest).take (front.length + 1) = front ++ [x] := by
  rw [List.take_append, List.take_of_length_le (Nat.le_succ _)]
  simp

theorem drop_length_succ (front : List ℤ) (x : ℤ) (rest : List ℤ) :
    (front ++ x :: rest).drop (front.length + 1) = rest := by
  rw [List.drop_append, List.drop_of_length_le (Nat.le_succ _)]
  simp

/-! ## The two functions -/

variable {left right : List ℤ} {x y : ℤ}

theorem not_length_le_one (front : List ℤ) :
    ¬ (front ++ x :: (left ++ y :: right)).length ≤ 1 := by
  simp only [List.length_append, List.length_cons]
  omega

namespace NextPerm

theorem nextPerm_last {array : List ℤ} (h : array.Pairwise fun a b => ¬ a < b) :
    nextPerm array = some (array, false) := by
  unfold nextPerm
  by_cases hlen : array.length ≤ 1
  · exact if_pos hlen
  · have hpivot : pivot array = some 0 :=
      scanPairs_start (h.imp fun hab => decide_eq_true (not_lt.mp hab)) _ (by omega)
    rw [if_neg hlen, hpivot]
    rfl

theorem nextPerm_pivot (front : List ℤ) (h : Pivots (· < ·) x y left right) :
    nextPerm (front ++ x :: (left ++ y :: right)) =
      some (front ++ y :: (left ++ x :: right).reverse, true) := by
  have hpivot : pivot (front ++ x :: (left ++ y :: right)) = some (front.length + 1) :=
    scanPairs_pivots h fun a b => by simp
  have hpartner : partner (front ++ x :: (left ++ y :: right)) front.length =
      some (front.length + 1 + left.length) := by
    rw [partner, getElem?_append_cons]
    exact scan_pivots h fun z => by simp
  unfold nextPerm
  rw [if_neg (not_length_le_one front), hpivot]
  simp only [Option.bind_eq_bind, Option.bind_some, Nat.succ_ne_zero, if_false,
    Nat.add_sub_cancel, hpartner, swap_apart, take_length_succ, drop_length_succ]
  simp

end NextPerm

namespace NextSmallest

theorem nextSmallest_last {arr : List ℤ} (h : arr.Pairwise fun a b => ¬ a > b) :
    nextSmallest arr = some (arr, 0) := by
  unfold nextSmallest
  by_cases hlen : arr.length ≤ 1
  · exact if_pos hlen
  · have hpivot : scanPairs (fun x y => x ≤ y) arr (arr.length - 1) = some 0 :=
      scanPairs_start (h.imp fun hab => decide_eq_true (not_lt.mp hab)) _ (by omega)
    rw [if_neg hlen, pivot, hpivot]
    rfl

theorem nextSmallest_pivot (front : List ℤ) (h : Pivots (· > ·) x y left right) :
    nextSmallest (front ++ x :: (left ++ y :: right)) =
      some (front ++ y :: (left ++ x :: right).reverse, 1) := by
  have hpivot : pivot (front ++ x :: (left ++ y :: right)) = some (front.length : ℤ) := by
    rw [pivot, scanPairs_pivots h fun a b => by simp]
    simp
  have hpartner : partner (front ++ x :: (left ++ y :: right)) front.length =
      some (front.length + 1 + left.length) := by
    rw [partner, getElem?_append_cons]
    exact scan_pivots h fun z => by simp
  have hk : (front.length : ℤ) ≠ -1 := by omega
  unfold nextSmallest
  rw [if_neg (not_length_le_one front), hpivot]
  simp only [Option.bind_eq_bind, Option.bind_some, hk, if_false, Int.toNat_natCast, hpartner,
    swap_apart, take_length_succ, drop_length_succ, reverse_eq]
  simp

end NextSmallest

/-! ## The order of the rearrangements -/

def Greater (array : List ℤ) : Set (List ℤ) := {q | q.Perm array ∧ array < q}

def Smaller (array : List ℤ) : Set (List ℤ) := {q | q.Perm array ∧ q < array}

theorem greater_eq_empty {array : List ℤ} (h : array.Pairwise fun a b => ¬ a < b) :
    Greater array = ∅ := by
  ext q
  exact ⟨fun hq => not_lex_of_descending h hq.1 hq.2, False.elim⟩

theorem smaller_eq_empty {array : List ℤ} (h : array.Pairwise fun a b => ¬ a > b) :
    Smaller array = ∅ := by
  ext q
  constructor
  · intro hq
    exact not_lex_of_descending h hq.1 ((lex_swap hq.1.length_eq.symm).mpr hq.2)
  · exact False.elim

theorem nextPerm_finds_least (array : List ℤ) :
    (∃ next, IsLeast (Greater array) next ∧ NextPerm.nextPerm array = some (next, true)) ∨
      Greater array = ∅ ∧ NextPerm.nextPerm array = some (array, false) := by
  rcases descending_or_pivot (r := (· < ·)) array with hdesc | ⟨front, x, left, y, right, heq, h⟩
  · exact .inr ⟨greater_eq_empty hdesc, NextPerm.nextPerm_last hdesc⟩
  · subst heq
    exact .inl ⟨_, isLeast_of_turned (.pivot front h), NextPerm.nextPerm_pivot front h⟩

theorem nextSmallest_finds_greatest (arr : List ℤ) :
    (∃ next, IsGreatest (Smaller arr) next ∧ NextSmallest.nextSmallest arr = some (next, 1)) ∨
      Smaller arr = ∅ ∧ NextSmallest.nextSmallest arr = some (arr, 0) := by
  rcases descending_or_pivot (r := (· > ·)) arr with hdesc | ⟨front, x, left, y, right, heq, h⟩
  · exact .inr ⟨smaller_eq_empty hdesc, NextSmallest.nextSmallest_last hdesc⟩
  · subst heq
    exact .inl ⟨_, isGreatest_of_turned (.pivot front h), NextSmallest.nextSmallest_pivot front h⟩

theorem smaller_of_perm {array next : List ℤ} (h : next.Perm array) :
    Smaller next = {q | q ∈ {p : List ℤ | p.Perm array} ∧ q < next} := by
  ext q
  exact and_congr_left fun _ => ⟨fun hq => hq.trans h, fun hq => hq.trans h.symm⟩

theorem greater_of_perm {array next : List ℤ} (h : next.Perm array) :
    Greater next = {q | q ∈ {p : List ℤ | p.Perm array} ∧ next < q} := by
  ext q
  exact and_congr_left fun _ => ⟨fun hq => hq.trans h, fun hq => hq.trans h.symm⟩

theorem nextSmallest_nextPerm {array next : List ℤ}
    (h : NextPerm.nextPerm array = some (next, true)) :
    NextSmallest.nextSmallest next = some (array, 1) := by
  rcases nextPerm_finds_least array with ⟨least, hleast, hcall⟩ | ⟨-, hcall⟩
  · have heq : next = least := by
      rw [h] at hcall
      exact (Prod.mk.inj (Option.some.inj hcall)).1
    subst heq
    have hback : IsGreatest (Smaller next) array := by
      rw [smaller_of_perm hleast.1.1]
      exact isGreatest_of_isLeast (List.Perm.refl array) hleast
    rcases nextSmallest_finds_greatest next with ⟨greatest, hgreatest, hcall⟩ | ⟨hempty, -⟩
    · rw [hcall, hgreatest.unique hback]
    · exact absurd hback.1 (hempty ▸ Set.notMem_empty array)
  · rw [h] at hcall
    exact absurd (Prod.mk.inj (Option.some.inj hcall)).2 (by decide)

theorem nextPerm_nextSmallest {arr next : List ℤ}
    (h : NextSmallest.nextSmallest arr = some (next, 1)) :
    NextPerm.nextPerm next = some (arr, true) := by
  rcases nextSmallest_finds_greatest arr with ⟨greatest, hgreatest, hcall⟩ | ⟨-, hcall⟩
  · have heq : next = greatest := by
      rw [h] at hcall
      exact (Prod.mk.inj (Option.some.inj hcall)).1
    subst heq
    have hback : IsLeast (Greater next) arr := by
      rw [greater_of_perm hgreatest.1.1]
      exact isLeast_of_isGreatest (List.Perm.refl arr) hgreatest
    rcases nextPerm_finds_least next with ⟨least, hleast, hcall⟩ | ⟨hempty, -⟩
    · rw [hcall, hleast.unique hback]
    · exact absurd hback.1 (hempty ▸ Set.notMem_empty arr)
  · rw [h] at hcall
    exact absurd (Prod.mk.inj (Option.some.inj hcall)).2 (by decide)

/-- Each function goes to the neighbour on its side, or leaves the array alone when there is none,
and the other one goes back. -/
theorem next_perm_next_smallest :
    (∀ array, (∃ next, IsLeast (Greater array) next ∧ NextPerm.nextPerm array = some (next, true)) ∨
      Greater array = ∅ ∧ NextPerm.nextPerm array = some (array, false)) ∧
    (∀ arr, (∃ next, IsGreatest (Smaller arr) next ∧
        NextSmallest.nextSmallest arr = some (next, 1)) ∨
      Smaller arr = ∅ ∧ NextSmallest.nextSmallest arr = some (arr, 0)) ∧
    (∀ array next, NextPerm.nextPerm array = some (next, true) →
      NextSmallest.nextSmallest next = some (array, 1)) ∧
    (∀ arr next, NextSmallest.nextSmallest arr = some (next, 1) →
      NextPerm.nextPerm next = some (arr, true)) :=
  ⟨nextPerm_finds_least, nextSmallest_finds_greatest, fun _ _ => nextSmallest_nextPerm,
    fun _ _ => nextPerm_nextSmallest⟩

example : NextPerm.nextPerm [1, 3, 4, 2] = some ([1, 4, 2, 3], true) := by decide

end InterviewQuestions.NextPermutation

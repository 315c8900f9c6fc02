import InterviewQuestions.Library.CountingLoop
import InterviewQuestions.Library.Rearrangement
import InterviewQuestions.Library.Sampling
import InterviewQuestions.RandShrink
import Mathlib.Data.Int.Order.Basic
import Mathlib.Data.List.Nodup
import Mathlib.Data.List.Pairwise
import Mathlib.Data.List.Perm.Basic

/-! `sorted_rand_subset` of `numeric/unique_bounded_rand/solution.c`. There is no result where an
index is out of range. -/
namespace InterviewQuestions.UniqueBoundedRand

open Library

/-! ## The functions -/

/-- The body of the loop of `quicksort`, on the array and `i`. -/
def scanOne (s : List ℤ × ℕ) (j : ℕ) : Option (List ℤ × ℕ) := do
  let (arr, i) := s
  let x ← arr[j]?
  let y ← arr[0]?
  if x ≤ y then return (← swap arr (i + 1) j, i + 1) else return (arr, i)

/-- What `quicksort` does before it calls itself. -/
def partition (arr : List ℤ) : Option (List ℤ × ℕ) := do
  let arr ← swap arr 0 (arr.length / 2)
  let (arr, i) ← (List.range' 1 (arr.length - 1)).foldlM scanOne (arr, 0)
  return (← swap arr 0 i, i)

/-- There is no result where the calls nest deeper than the fuel. -/
def quicksort : ℕ → List ℤ → Option (List ℤ)
  | 0, _ => none
  | fuel + 1, arr =>
      if arr.length ≤ 1 then some arr
      else do
        let (arr, i) ← partition arr
        let arr := (← quicksort fuel (arr.take i)) ++ arr.drop i
        if i > 0 ∧ i - 1 < arr.length then
          return arr.take (i + 1) ++ (← quicksort fuel (arr.drop (i + 1)))
        else return arr

def store (arr : List ℤ) (i : ℕ) (x : ℤ) : Option (List ℤ) :=
  if i < arr.length then some (arr.set i x) else none

/-- What the memory holds before anything is written to it does not matter. -/
def malloc (junk : ℕ → ℤ) (size : ℕ) : List ℤ := (List.range (size / 4)).map junk

/-- The conversion from `size_t` to `int`. -/
def toInt (i : ℕ) : ℤ := (i : ℤ).bmod (2 ^ 32)

/-- `vals[i] = i;` -/
def fill (vals : List ℤ) (i : ℕ) : Option (List ℤ) := store vals i (toInt i)

/-- `outcome i` is what `range_rand(i, max)` returns. -/
def sortedRandSubset (junk : ℕ → ℤ) (outcome : ℕ → ℕ) (arr : List ℤ) (arrSz max : ℕ) :
    Option (List ℤ) := do
  let vals := malloc junk (4 * ((max + 1) % 2 ^ 64) % 2 ^ 64)
  let vals ← (List.range' 0 ((max + 1) % 2 ^ 64)).foldlM fill vals
  let vals ← (List.range' 0 arrSz).foldlM (fun vals i => swap vals i (outcome i)) vals
  if arrSz ≤ vals.length ∧ arrSz ≤ arr.length then
    return (← quicksort (arrSz + 1) (vals.take arrSz)) ++ arr.drop arrSz
  else none

/-! ## The pivot and the two sides -/

/-- The entry that becomes the pivot. -/
def pivot (arr : List ℤ) : ℤ := arr.getD (arr.length / 2) 0

/-- The other entries. The first one has taken the place of the pivot. -/
def others (arr : List ℤ) : List ℤ := (arr.set (arr.length / 2) (arr.headD 0)).tail

/-- What comes in front of the pivot. -/
def below (p : ℤ) (xs : List ℤ) : List ℤ := lastToFront (xs.filter (· ≤ p))

/-- The large entries make room for one more of them or for a small one. -/
def shift (p : ℤ) (larger : List ℤ) (x : ℤ) : List ℤ :=
  if x ≤ p then firstToEnd larger else larger ++ [x]

/-- What comes behind the pivot. -/
def above (p : ℤ) (xs : List ℤ) : List ℤ := xs.foldl (shift p) []

variable {arr xs larger : List ℤ} {p : ℤ}

theorem swap_pivot (h : 1 < arr.length) :
    swap arr 0 (arr.length / 2) = some (pivot arr :: others arr) := by
  have hmid : arr.length / 2 < arr.length := Nat.div_lt_self (by omega) (by omega)
  obtain ⟨k, hk⟩ := Nat.exists_eq_succ_of_ne_zero (show arr.length / 2 ≠ 0 by omega)
  have hpivot : arr[k + 1]? = some (pivot arr) := by
    rw [pivot, hk, List.getD_eq_getElem?_getD, List.getElem?_eq_getElem (by omega)]
    rfl
  rw [others, hk]
  cases arr with
  | nil => cases hpivot
  | cons x rest =>
    unfold swap
    rw [hpivot]
    rfl

theorem pivot_others_perm (h : 1 < arr.length) : (pivot arr :: others arr).Perm arr := by
  obtain ⟨arr', hswap, hperm, -⟩ := @exists_swap ℤ arr 0 (arr.length / 2) (by omega)
    (Nat.div_lt_self (by omega) (by omega))
  rw [swap_pivot h] at hswap
  exact Option.some.inj hswap ▸ hperm

theorem below_perm (p : ℤ) (xs : List ℤ) : (below p xs).Perm (xs.filter (· ≤ p)) :=
  lastToFront_perm _

theorem foldl_shift_perm (p : ℤ) (xs larger : List ℤ) :
    (xs.foldl (shift p) larger).Perm (larger ++ xs.filter (p < ·)) := by
  induction xs generalizing larger with
  | nil => simp
  | cons x xs ih =>
    rw [List.foldl_cons]
    refine (ih (shift p larger x)).trans ?_
    by_cases hx : x ≤ p
    · rw [shift, if_pos hx, List.filter_cons_of_neg (by simpa using hx)]
      exact (firstToEnd_perm larger).append_right _
    · rw [shift, if_neg hx, List.filter_cons_of_pos (by simpa using hx), List.append_assoc]
      rfl

theorem above_perm (p : ℤ) (xs : List ℤ) : (above p xs).Perm (xs.filter (p < ·)) :=
  foldl_shift_perm p xs []

theorem sides_perm (p : ℤ) (xs : List ℤ) : (below p xs ++ p :: above p xs).Perm (p :: xs) := by
  refine List.perm_middle.trans (List.Perm.cons p ?_)
  refine ((below_perm p xs).append (above_perm p xs)).trans ?_
  have hnot : xs.filter (p < ·) = xs.filter fun x => !decide (x ≤ p) := by
    simp only [← not_le, decide_not]
  rw [hnot]
  exact List.filter_append_perm (fun x => decide (x ≤ p)) xs

/-! ## One partition -/

section Scan

variable (p x : ℤ) (smaller larger todo : List ℤ)

theorem getElem?_scanned :
    (p :: (smaller ++ (larger ++ x :: todo)))[1 + smaller.length + larger.length]? = some x := by
  have hget := getElem?_append_cons (p :: (smaller ++ larger)) x todo
  rw [List.length_cons, List.length_append, Nat.add_comm _ 1, ← Nat.add_assoc] at hget
  simpa using hget

theorem scanOne_small (hx : x ≤ p) :
    scanOne (p :: (smaller ++ (larger ++ x :: todo)), smaller.length)
      (1 + smaller.length + larger.length) =
        some (p :: (smaller ++ [x] ++ (firstToEnd larger ++ todo)), (smaller ++ [x]).length) := by
  have hswap := swap_past (p :: smaller) larger todo x
  rw [List.length_cons, Nat.add_comm smaller.length, List.cons_append] at hswap
  unfold scanOne
  simp only [getElem?_scanned, List.getElem?_cons_zero, Option.bind_eq_bind, Option.bind_some]
  rw [if_pos hx, Nat.add_comm smaller.length, hswap]
  simp [Nat.add_comm 1]

theorem scanOne_large (hx : ¬ x ≤ p) :
    scanOne (p :: (smaller ++ (larger ++ x :: todo)), smaller.length)
      (1 + smaller.length + larger.length) =
        some (p :: (smaller ++ (larger ++ [x] ++ todo)), smaller.length) := by
  unfold scanOne
  simp only [getElem?_scanned, List.getElem?_cons_zero, Option.bind_eq_bind, Option.bind_some]
  rw [if_neg hx]
  simp

theorem scan_eq :
    (List.range' (1 + smaller.length + larger.length) todo.length).foldlM scanOne
      (p :: (smaller ++ (larger ++ todo)), smaller.length) =
        some (p :: (smaller ++ todo.filter (· ≤ p) ++ todo.foldl (shift p) larger),
          (smaller ++ todo.filter (· ≤ p)).length) := by
  induction todo generalizing smaller larger with
  | nil => simp
  | cons x todo ih =>
    rw [List.length_cons, List.range'_succ, List.foldlM_cons, List.foldl_cons]
    by_cases hx : x ≤ p
    · have hlen : 1 + smaller.length + larger.length + 1 =
          1 + (smaller ++ [x]).length + (firstToEnd larger).length := by
        rw [(firstToEnd_perm larger).length_eq, List.length_append, List.length_singleton]
        omega
      rw [scanOne_small p x smaller larger todo hx, Option.bind_eq_bind, Option.bind_some, hlen,
        ih, shift, if_pos hx, List.filter_cons_of_pos (by simpa using hx)]
      simp
    · have hlen : 1 + smaller.length + larger.length + 1 =
          1 + smaller.length + (larger ++ [x]).length := by
        rw [List.length_append, List.length_singleton, Nat.add_assoc _ larger.length]
      rw [scanOne_large p x smaller larger todo hx, Option.bind_eq_bind, Option.bind_some, hlen,
        ih, shift, if_neg hx, List.filter_cons_of_neg (by simpa using hx)]

end Scan

theorem partition_eq (h : 1 < arr.length) :
    partition arr = some (below (pivot arr) (others arr) ++
      pivot arr :: above (pivot arr) (others arr), (below (pivot arr) (others arr)).length) := by
  have hlen := (pivot_others_perm h).length_eq
  have hscan := scan_eq (pivot arr) [] [] (others arr)
  have hswap := swap_before [] ((others arr).filter (· ≤ pivot arr))
    (above (pivot arr) (others arr)) (pivot arr)
  simp only [List.length_nil, Nat.add_zero, Nat.zero_add, List.nil_append] at hscan hswap
  rw [List.length_cons] at hlen
  unfold partition
  rw [swap_pivot h]
  simp only [Option.bind_eq_bind, Option.bind_some, List.length_cons, Nat.add_sub_cancel, hscan]
  rw [above] at hswap ⊢
  rw [hswap, (below_perm _ _).length_eq]
  rfl

/-! ## The order after all calls -/

/-- The arrays that `quicksort` gets right. Where the pivot is the least entry, the others are not
looked at again. -/
inductive Sortable : List ℤ → Prop
  | short {arr : List ℤ} (h : arr.length ≤ 1) : Sortable arr
  | least {arr : List ℤ} (h : 1 < arr.length) (hpivot : ∀ x ∈ others arr, pivot arr < x)
      (hrest : (others arr).Pairwise (· < ·)) : Sortable arr
  | sides {arr : List ℤ} (h : 1 < arr.length) (hpivot : ∃ x ∈ others arr, x ≤ pivot arr)
      (hbelow : Sortable (below (pivot arr) (others arr)))
      (habove : Sortable (above (pivot arr) (others arr))) : Sortable arr

theorem sortable_iff_least (h : 1 < arr.length) (hpivot : ∀ x ∈ others arr, pivot arr < x) :
    Sortable arr ↔ (others arr).Pairwise (· < ·) := by
  refine ⟨fun hsort => ?_, .least h hpivot⟩
  cases hsort with
  | short hshort => omega
  | least _ _ hrest => exact hrest
  | sides _ hsmall =>
    obtain ⟨x, hx, hle⟩ := hsmall
    exact absurd hle (not_le.mpr (hpivot x hx))

theorem sortable_iff_sides (h : 1 < arr.length) (hpivot : ∃ x ∈ others arr, x ≤ pivot arr) :
    Sortable arr ↔ Sortable (below (pivot arr) (others arr)) ∧
      Sortable (above (pivot arr) (others arr)) := by
  refine ⟨fun hsort => ?_, fun hsort => .sides h hpivot hsort.1 hsort.2⟩
  cases hsort with
  | short hshort => omega
  | least _ hleast =>
    obtain ⟨x, hx, hle⟩ := hpivot
    exact absurd hle (not_le.mpr (hleast x hx))
  | sides _ _ hbelow habove => exact ⟨hbelow, habove⟩

theorem foldl_shift_of_lt (h : ∀ x ∈ xs, p < x) : xs.foldl (shift p) larger = larger ++ xs := by
  induction xs generalizing larger with
  | nil => simp
  | cons x xs ih =>
    obtain ⟨hx, hxs⟩ := List.forall_mem_cons.mp h
    rw [List.foldl_cons, ih hxs, shift, if_neg (not_le.mpr hx), List.append_assoc]
    rfl

theorem mem_below {x : ℤ} : x ∈ below p xs ↔ x ∈ xs ∧ x ≤ p := by
  rw [(below_perm p xs).mem_iff, List.mem_filter, decide_eq_true_iff]

theorem mem_above {x : ℤ} : x ∈ above p xs ↔ x ∈ xs ∧ p < x := by
  rw [(above_perm p xs).mem_iff, List.mem_filter, decide_eq_true_iff]

/-- The two sides are in order when each of them is. -/
theorem pairwise_sides {left right : List ℤ} (hp : p ∉ xs) (hleft : left.Perm (below p xs))
    (hright : right.Perm (above p xs)) : (left ++ p :: right).Pairwise (· < ·) ↔
      left.Pairwise (· < ·) ∧ right.Pairwise (· < ·) := by
  have hlow : ∀ x ∈ left, x < p := by
    intro x hx
    obtain ⟨hmem, hle⟩ := mem_below.mp (hleft.mem_iff.mp hx)
    exact lt_of_le_of_ne hle (ne_of_mem_of_not_mem hmem hp)
  have hhigh : ∀ x ∈ right, p < x := fun x hx => (mem_above.mp (hright.mem_iff.mp hx)).2
  rw [List.pairwise_append, List.pairwise_cons]
  constructor
  · exact fun h => ⟨h.1, h.2.1.2⟩
  · rintro ⟨hl, hr⟩
    refine ⟨hl, ⟨hhigh, hr⟩, fun x hx y hy => ?_⟩
    rcases List.mem_cons.mp hy with rfl | hy
    · exact hlow x hx
    · exact (hlow x hx).trans (hhigh y hy)

/-- Nothing is in front of the pivot, and what is behind it is not sorted. -/
theorem quicksort_least {fuel : ℕ} (h : 1 < arr.length)
    (hpivot : ∀ x ∈ others arr, pivot arr < x) (hnil : quicksort fuel [] = some []) :
    quicksort (fuel + 1) arr = some (pivot arr :: others arr) := by
  have hnone : below (pivot arr) (others arr) = [] := by
    rw [List.eq_nil_iff_forall_not_mem]
    intro x hx
    obtain ⟨hmem, hle⟩ := mem_below.mp hx
    exact absurd hle (not_le.mpr (hpivot x hmem))
  have hall : above (pivot arr) (others arr) = others arr := foldl_shift_of_lt hpivot
  rw [quicksort, if_neg (not_le.mpr h), partition_eq h, hnone, hall]
  simp only [Option.bind_eq_bind, Option.bind_some, List.take_left, List.drop_left, hnil]
  exact if_neg (by simp)

theorem quicksort_sides {fuel : ℕ} {left right : List ℤ} (h : 1 < arr.length)
    (hpivot : ∃ x ∈ others arr, x ≤ pivot arr)
    (hleft : quicksort fuel (below (pivot arr) (others arr)) = some left)
    (hlen : left.length = (below (pivot arr) (others arr)).length)
    (hright : quicksort fuel (above (pivot arr) (others arr)) = some right) :
    quicksort (fuel + 1) arr = some (left ++ pivot arr :: right) := by
  obtain ⟨x, hx, hle⟩ := hpivot
  have hpos := List.length_pos_of_mem (mem_below.mpr ⟨hx, hle⟩)
  have hlenL : (left ++ [pivot arr]).length = (below (pivot arr) (others arr)).length + 1 := by
    rw [List.length_append, List.length_singleton, hlen]
  have hinside : (below (pivot arr) (others arr)).length - 1 <
      (left ++ pivot arr :: above (pivot arr) (others arr)).length := by
    rw [List.length_append]
    omega
  rw [quicksort, if_neg (not_le.mpr h), partition_eq h]
  simp only [Option.bind_eq_bind, Option.bind_some, List.take_left, List.drop_left, hleft]
  rw [if_pos ⟨hpos, hinside⟩, List.append_cons, ← hlenL, List.take_left, List.drop_left, hright]
  simp

/-- `quicksort` ends with the same entries, in order when the array is one that it gets right. -/
theorem quicksort_eq_some (fuel : ℕ) (arr : List ℤ) (hfuel : arr.length < fuel)
    (hnodup : arr.Nodup) :
    ∃ sorted, quicksort fuel arr = some sorted ∧ sorted.Perm arr ∧
      (sorted.Pairwise (· < ·) ↔ Sortable arr) := by
  induction fuel generalizing arr with
  | zero => omega
  | succ fuel ih =>
    by_cases hshort : arr.length ≤ 1
    · rw [quicksort, if_pos hshort]
      exact ⟨arr, rfl, .refl _, fun _ => .short hshort, fun _ => pairwise_of_short hshort⟩
    · have h : 1 < arr.length := not_le.mp hshort
      have hperm := pivot_others_perm h
      obtain ⟨hp, hothers⟩ := List.nodup_cons.mp (hperm.nodup_iff.mpr hnodup)
      by_cases hpivot : ∀ x ∈ others arr, pivot arr < x
      · have hnil : quicksort fuel [] = some [] := by
          cases fuel with
          | zero => omega
          | succ fuel => rfl
        refine ⟨_, quicksort_least h hpivot hnil, hperm, ?_⟩
        rw [sortable_iff_least h hpivot, List.pairwise_cons]
        exact ⟨fun hsort => hsort.2, fun hsort => ⟨hpivot, hsort⟩⟩
      · have hsome : ∃ x ∈ others arr, x ≤ pivot arr := by
          simpa using hpivot
        have hsides := sides_perm (pivot arr) (others arr)
        have hlen := (hsides.trans hperm).length_eq
        rw [List.length_append, List.length_cons] at hlen
        have hbelow := (below_perm (pivot arr) (others arr)).nodup_iff.mpr (hothers.filter _)
        have habove := (above_perm (pivot arr) (others arr)).nodup_iff.mpr (hothers.filter _)
        obtain ⟨left, hleft, hpermL, hsortL⟩ := ih _ (by omega) hbelow
        obtain ⟨right, hright, hpermR, hsortR⟩ := ih _ (by omega) habove
        refine ⟨_, quicksort_sides h hsome hleft hpermL.length_eq hright, ?_, ?_⟩
        · exact (hpermL.append (hpermR.cons _)).trans (hsides.trans hperm)
        · rw [pairwise_sides hp hpermL hpermR, sortable_iff_sides h hsome, hsortL, hsortR]

/-! ## The shuffle -/

theorem fill_eq (front rest : List ℤ) :
    (List.range' front.length rest.length).foldlM fill (front ++ rest) =
      some (front ++ (List.range' front.length rest.length).map toInt) := by
  induction rest generalizing front with
  | nil => simp
  | cons x rest ih =>
    have hfill : fill (front ++ x :: rest) front.length =
        some (front ++ [toInt front.length] ++ rest) := by
      unfold fill store
      rw [if_pos (by simp), set_append_cons]
      simp
    have hnext := ih (front ++ [toInt front.length])
    rw [List.length_append, List.length_singleton] at hnext
    rw [List.length_cons, List.range'_succ, List.foldlM_cons, hfill, Option.bind_eq_bind,
      Option.bind_some, hnext]
    simp

/-- A block that is too small is left. -/
theorem fill_eq_none (vals : List ℤ) {count : ℕ} (h : vals.length < count) :
    (List.range' 0 count).foldlM fill vals = none := by
  apply foldlM_range'_eq_none vals.length fun _ vals' => vals'.length = vals.length
  · intro i vals₁ vals₂ hi hlen hfill
    unfold fill store at hfill
    rw [if_pos (hlen ▸ hi)] at hfill
    cases hfill
    rwa [List.length_set]
  · intro vals' hlen
    exact if_neg (hlen ▸ Nat.lt_irrefl _)
  · exact Nat.zero_le _
  · rwa [Nat.zero_add]
  · rfl

/-- Which entries stand where after the first `i` exchanges. -/
def shuffled (outcome : ℕ → ℕ) : ℕ → Equiv.Perm ℕ
  | 0 => Equiv.refl ℕ
  | i + 1 => (Equiv.swap i (outcome i)).trans (shuffled outcome i)

/-- The first `m` entries of the shuffled array. -/
def firstShuffled (outcome : ℕ → ℕ) (m : ℕ) : List ℤ :=
  (List.range m).map fun k => (shuffled outcome m k : ℤ)

variable {outcome : ℕ → ℕ} {m n i j k bound : ℕ}

theorem swap_le (hi : i ≤ bound) (hj : j ≤ bound) (hk : k ≤ bound) :
    Equiv.swap i j k ≤ bound := by
  rw [Equiv.swap_apply_def]
  split
  · exact hj
  · split
    · exact hi
    · exact hk

/-- The entries up to a bound change places among themselves. -/
theorem shuffled_le (h : ∀ j < i, j ≤ bound ∧ outcome j ≤ bound) (hk : k ≤ bound) :
    shuffled outcome i k ≤ bound := by
  induction i generalizing k with
  | zero => exact hk
  | succ i ih =>
    obtain ⟨hi, hout⟩ := h i (Nat.lt_succ_self i)
    exact ih (fun j hj => h j (Nat.lt_succ_of_lt hj)) (swap_le hi hout hk)

theorem nodup_firstShuffled (outcome : ℕ → ℕ) (m : ℕ) : (firstShuffled outcome m).Nodup := by
  apply List.Nodup.map _ List.nodup_range
  exact fun k k' h => (shuffled outcome m).injective (Int.ofNat.inj h)

theorem shuffle_spec (hm : m ≤ n + 1) (hout : ∀ i < m, outcome i ≤ n) :
    ∃ vals, (List.range' 0 m).foldlM (fun vals i => swap vals i (outcome i))
        ((List.range' 0 (n + 1)).map toInt) = some vals ∧
      vals.length = n + 1 ∧ ∀ k ≤ n, vals[k]? = some (toInt (shuffled outcome m k)) := by
  apply foldlM_range'_spec fun i vals => vals.length = n + 1 ∧
    ∀ k ≤ n, vals[k]? = some (toInt (shuffled outcome i k))
  · rintro i vals - hi ⟨hlen, hvals⟩
    have hle := hout i (by omega)
    obtain ⟨vals', hswap, hperm, hget⟩ := @exists_swap ℤ vals i (outcome i) (by omega) (by omega)
    refine ⟨vals', hswap, hperm.length_eq.trans hlen, fun k hk => ?_⟩
    rw [hget, hvals _ (swap_le (by omega) hle hk)]
    rfl
  · refine ⟨by simp, fun k hk => ?_⟩
    rw [List.getElem?_map, List.getElem?_range' (by omega), Nat.zero_add, Nat.one_mul]
    rfl
  · intro vals hvals
    rwa [Nat.zero_add] at hvals

theorem toInt_of_lt (h : i < 2 ^ 31) : toInt i = i := Int.bmod_eq_of_le (by omega) (by omega)

/-- An `int` is an index below 2^31, so that the converted values are the values themselves. -/
theorem take_shuffled {vals : List ℤ} (hm : m ≤ n + 1) (hlen : vals.length = n + 1)
    (hout : ∀ i < m, i ≤ outcome i ∧ outcome i ≤ n ∧ outcome i < 2 ^ 31)
    (hvals : ∀ k ≤ n, vals[k]? = some (toInt (shuffled outcome m k))) :
    vals.take m = firstShuffled outcome m := by
  apply List.ext_getElem?
  intro k
  by_cases hk : k < m
  · have hle : shuffled outcome m k ≤ 2 ^ 31 - 1 := by
      have hbound (j : ℕ) (hj : j < m) : j ≤ 2 ^ 31 - 1 ∧ outcome j ≤ 2 ^ 31 - 1 := by
        have hj' := hout j hj
        omega
      exact shuffled_le hbound (hbound k hk).1
    rw [List.getElem?_take_of_lt hk, hvals k (by omega), toInt_of_lt (by omega), firstShuffled,
      List.getElem?_map, List.getElem?_range hk]
    rfl
  · rw [List.getElem?_eq_none (by rw [List.length_take]; omega),
      List.getElem?_eq_none (by rw [firstShuffled, List.length_map, List.length_range]; omega)]

/-! ## The result -/

variable {junk : ℕ → ℤ} {arr : List ℤ}

/-- `arr` begins with the first entries of the shuffled array in order, all from 0 to `n`. -/
def Fills (junk : ℕ → ℤ) (outcome : ℕ → ℕ) (arr : List ℤ) (m n : ℕ) : Prop :=
  ∃ sorted, sortedRandSubset junk outcome arr m n = some (sorted ++ arr.drop m) ∧
    sorted.Pairwise (· < ·) ∧ (∀ v ∈ sorted, 0 ≤ v ∧ v ≤ n) ∧
      sorted.Perm (firstShuffled outcome m)

theorem sortedRandSubset_eq (hn : n + 1 < 2 ^ 62) (hm : m ≤ n + 1) (harr : m ≤ arr.length)
    (hout : ∀ i < m, i ≤ outcome i ∧ outcome i ≤ n ∧ outcome i < 2 ^ 31) :
    sortedRandSubset junk outcome arr m n =
      (quicksort (m + 1) (firstShuffled outcome m)).map (· ++ arr.drop m) := by
  have hsize : (n + 1) % 2 ^ 64 = n + 1 := Nat.mod_eq_of_lt (by omega)
  have hblock : (malloc junk (4 * (n + 1) % 2 ^ 64)).length = n + 1 := by
    rw [malloc, List.length_map, List.length_range]
    omega
  have hfill := fill_eq [] (malloc junk (4 * (n + 1) % 2 ^ 64))
  rw [hblock, List.nil_append, List.nil_append, List.length_nil] at hfill
  obtain ⟨vals, hshuffle, hlen, hvals⟩ := shuffle_spec hm fun i hi => (hout i hi).2.1
  unfold sortedRandSubset
  rw [hsize]
  simp only [Option.bind_eq_bind, hfill, Option.bind_some, hshuffle]
  rw [if_pos ⟨hlen ▸ hm, harr⟩, take_shuffled hm hlen hout hvals]
  exact Option.map_eq_bind.symm

theorem mem_firstShuffled (hm : m ≤ n + 1) (hout : ∀ i < m, outcome i ≤ n) {v : ℤ}
    (hv : v ∈ firstShuffled outcome m) : 0 ≤ v ∧ v ≤ n := by
  obtain ⟨k, hk, rfl⟩ := List.mem_map.mp hv
  have hk' := List.mem_range.mp hk
  have hle := shuffled_le (fun j hj => ⟨by omega, hout j hj⟩) (show k ≤ n by omega)
  exact ⟨Int.natCast_nonneg _, Int.ofNat_le.mpr hle⟩

theorem fills_iff_of_lt (hn : n + 1 < 2 ^ 62) (hm : m ≤ n + 1) (harr : m ≤ arr.length)
    (hout : ∀ i < m, i ≤ outcome i ∧ outcome i ≤ n ∧ outcome i < 2 ^ 31) :
    Fills junk outcome arr m n ↔ Sortable (firstShuffled outcome m) := by
  have hlen : (firstShuffled outcome m).length = m := by
    rw [firstShuffled, List.length_map, List.length_range]
  obtain ⟨sorted, hsort, hperm, hiff⟩ := quicksort_eq_some (m + 1) (firstShuffled outcome m)
    (by omega) (nodup_firstShuffled outcome m)
  have heq : sortedRandSubset junk outcome arr m n = some (sorted ++ arr.drop m) := by
    rw [sortedRandSubset_eq hn hm harr hout, hsort]
    rfl
  rw [← hiff]
  constructor
  · rintro ⟨sorted', heq', hordered, -⟩
    rw [heq, Option.some.injEq] at heq'
    rwa [List.append_cancel_right heq']
  · intro hordered
    refine ⟨sorted, heq, hordered, fun v hv => ?_, hperm⟩
    exact mem_firstShuffled hm (fun i hi => (hout i hi).2.1) (hperm.mem_iff.mp hv)

theorem sortedRandSubset_eq_none (hn : 2 ^ 62 ≤ n + 1) (hn' : n + 1 < 2 ^ 64) :
    sortedRandSubset junk outcome arr m n = none := by
  have hsize : (n + 1) % 2 ^ 64 = n + 1 := Nat.mod_eq_of_lt hn'
  have hblock : (malloc junk (4 * (n + 1) % 2 ^ 64)).length < n + 1 := by
    rw [malloc, List.length_map, List.length_range]
    omega
  unfold sortedRandSubset
  rw [hsize]
  simp only [Option.bind_eq_bind, fill_eq_none _ hblock, Option.bind_none]

/-- The loop that fills the block ends at once. -/
theorem sortedRandSubset_wrapped (hn : n + 1 = 2 ^ 64) :
    sortedRandSubset junk outcome arr m n = if m = 0 then some arr else none := by
  unfold sortedRandSubset
  rw [hn, Nat.mod_self]
  cases m with
  | zero =>
    simp [malloc, quicksort]
  | succ m =>
    simp [malloc, List.range'_succ, swap]

/-- Where the size of the block goes beyond the range of `size_t`, only nothing can be asked
for. -/
theorem fills_iff_of_le (hn : 2 ^ 62 ≤ n + 1) (hn' : n + 1 ≤ 2 ^ 64) :
    Fills junk outcome arr m n ↔ m = 0 ∧ n + 1 = 2 ^ 64 := by
  unfold Fills
  rcases Nat.eq_or_lt_of_le hn' with heq | hlt
  · rw [sortedRandSubset_wrapped heq]
    constructor
    · rintro ⟨sorted, hres, -⟩
      by_contra hne
      rw [if_neg fun hm => hne ⟨hm, heq⟩] at hres
      cases hres
    · rintro ⟨rfl, -⟩
      exact ⟨[], rfl, .nil, fun v hv => absurd hv List.not_mem_nil, .refl _⟩
  · rw [sortedRandSubset_eq_none hn hlt]
    constructor
    · rintro ⟨sorted, hres, -⟩
      cases hres
    · rintro ⟨-, heq⟩
      exact absurd heq (Nat.ne_of_lt hlt)

end InterviewQuestions.UniqueBoundedRand

/-! `knuth_rand_subset` of `numeric/unique_bounded_rand/solution.c`. -/
namespace InterviewQuestions.UniqueBoundedRand

open Library Draws SelectionSampling

/-- `range_rand(low, high)` with the next of the outcomes, counted from `low`. There is no result
for an outcome that is out of the range. -/
def rangeRand (randMax : ℕ) (low high : ℤ) (outcomes : List ℕ) : Option (ℤ × List ℕ) :=
  if high - low + 1 > randMax then some (-1, outcomes)
  else
    match outcomes with
    | [] => none
    | d :: outcomes => if low + d ≤ high then some (low + d, outcomes) else none

structure Knuth where
  missing : ℕ
  remaining : ℕ
  i : ℕ
  j : ℕ
  arr : List ℤ

/-- The conversion from `int` to `size_t`. -/
def toSize (z : ℤ) : ℕ := (z % 2 ^ 64).toNat

theorem rangeRand_of_le {randMax d : ℕ} {low high : ℤ} (hsize : high - low + 1 ≤ randMax)
    (hd : low + d ≤ high) (outcomes : List ℕ) :
    rangeRand randMax low high (d :: outcomes) = some (low + d, outcomes) := by
  rw [rangeRand, if_neg (not_lt.mpr hsize)]
  exact if_pos hd

/-- What the calls of `rand()` lead to is one of the outcomes. -/
theorem exists_outcome {randMax w : ℕ} {low v : ℤ} {rands rest : List ℕ} (hw : w + 1 ≤ randMax)
    (hrands : ∀ r ∈ rands, r ≤ randMax)
    (h : RandShrink.rangeRand some randMax low (low + w) rands = some (v, rest)) :
    ∃ d < w + 1, ∀ outcomes,
      rangeRand randMax low (low + w) (d :: outcomes) = some (v, outcomes) := by
  have hwidth : low + (w : ℤ) - low = w := by omega
  unfold RandShrink.rangeRand at h
  simp only [Option.bind_eq_bind, Option.bind_some, hwidth] at h
  rw [if_neg (by omega)] at h
  obtain ⟨x, hx, hres⟩ := Option.bind_eq_some_iff.mp h
  obtain ⟨d, hd, hxd⟩ := RandShrink.randZero_mem (Nat.le_of_succ_le hw) hrands hx
  cases hres
  refine ⟨d, hd, fun outcomes => ?_⟩
  rw [rangeRand_of_le (by omega) (by omega), hxd, Int.add_comm]

/-- `n-1` for a `size_t`. -/
def decrement (n : ℕ) : ℕ := (n + (2 ^ 64 - 1)) % 2 ^ 64

/-- `arr[j++] = i; missing--;` -/
def Knuth.take (s : Knuth) : Option Knuth := do
  let arr ← store s.arr s.j (toInt s.i)
  return { s with arr := arr, j := s.j + 1, missing := decrement s.missing }

/-- There is no result where the loop has not ended after as many iterations as there is fuel. -/
def knuthLoop (randMax : ℕ) : ℕ → List ℕ → Knuth → Option (List ℤ)
  | 0, _, _ => none
  | fuel + 1, outcomes, s =>
      if s.missing = 0 then some s.arr
      else do
        let last := decrement s.remaining
        let (r, outcomes) ← rangeRand randMax 0 (toInt last) outcomes
        let s ← if toSize r < s.missing then s.take else some s
        knuthLoop randMax fuel outcomes { s with remaining := last, i := s.i + 1 }

def knuthRandSubset (randMax fuel : ℕ) (outcomes : List ℕ) (arr : List ℤ) (arrSz max : ℕ) :
    Option (List ℤ) :=
  knuthLoop randMax fuel outcomes ⟨arrSz, (max + 1) % 2 ^ 64, 0, 0, arr⟩

variable {randMax fuel missing remaining i d : ℕ} {ds outcomes : List ℕ}

theorem decrement_succ {n : ℕ} (h : n < 2 ^ 64) : decrement (n + 1) = n := by
  unfold decrement
  omega

theorem toSize_natCast {n : ℕ} (h : n < 2 ^ 64) : toSize n = n := by
  unfold toSize
  omega

/-- The call that chooses among the candidates that remain. -/
theorem rangeRand_remaining (h : remaining + 1 ≤ randMax) (hsize : randMax < 2 ^ 31)
    (hd : d < remaining + 1) (outcomes : List ℕ) :
    rangeRand randMax 0 (toInt remaining) (d :: outcomes) = some ((d : ℤ), outcomes) := by
  rw [toInt_of_lt (by omega), rangeRand_of_le (by omega) (by omega), Int.zero_add]

theorem take_eq (hi : i < 2 ^ 31) (hmissing : missing < 2 ^ 64) (front rest : List ℤ) (x : ℤ) :
    Knuth.take ⟨missing + 1, remaining, i, front.length, front ++ x :: rest⟩ =
      some ⟨missing, remaining, i, (front ++ [(i : ℤ)]).length, front ++ [(i : ℤ)] ++ rest⟩ := by
  have hstore : store (front ++ x :: rest) front.length i = some (front ++ [(i : ℤ)] ++ rest) := by
    unfold store
    rw [if_pos (by simp), set_append_cons]
    simp
  rw [Knuth.take, toInt_of_lt hi, hstore, decrement_succ hmissing]
  simp

/-- Each iteration takes the candidate or passes it over, as the draw says. -/
theorem knuthLoop_eq (front rest : List ℤ) (hfuel : remaining < fuel)
    (hds : ds ∈ all (falling remaining)) (hmissing : missing ≤ remaining)
    (hremaining : remaining ≤ randMax) (hsize : randMax < 2 ^ 31)
    (hi : i + remaining ≤ 2 ^ 31) (hrest : missing ≤ rest.length) :
    knuthLoop randMax fuel ds ⟨missing, remaining, i, front.length, front ++ rest⟩ =
      some (front ++ (picks ds missing i).map (fun v : ℕ => (v : ℤ)) ++ rest.drop missing) := by
  induction fuel generalizing ds missing remaining i front rest with
  | zero => omega
  | succ fuel ih =>
    rw [knuthLoop]
    cases missing with
    | zero =>
      rw [if_pos rfl, picks_zero]
      simp
    | succ missing =>
      cases remaining with
      | zero => omega
      | succ remaining =>
        obtain ⟨d, ds, rfl, hd, hds⟩ := exists_cons_of_mem_all hds
        rw [if_neg (Nat.succ_ne_zero missing)]
        simp only [decrement_succ (show remaining < 2 ^ 64 by omega),
          rangeRand_remaining hremaining hsize hd, Option.bind_eq_bind, Option.bind_some,
          toSize_natCast (show d < 2 ^ 64 by omega), picks]
        by_cases htake : d < missing + 1
        · obtain ⟨x, rest, rfl⟩ := List.exists_cons_of_length_pos (by omega : 0 < rest.length)
          have hnext := ih (front ++ [(i : ℤ)]) rest (by omega) hds
            (Nat.le_of_succ_le_succ hmissing) (by omega) (by omega : i + 1 + remaining ≤ 2 ^ 31)
            (Nat.le_of_succ_le_succ hrest)
          rw [if_pos htake, if_pos htake, take_eq (by omega) (by omega), Option.bind_some, hnext]
          simp
        · rw [if_neg htake, if_neg htake]
          exact ih front rest (by omega) hds (by omega) (by omega) (by omega) hrest

variable {arr : List ℤ} {m n : ℕ}

theorem knuthRandSubset_eq (hfuel : n + 1 < fuel) (hds : ds ∈ all (falling (n + 1)))
    (hm : m ≤ n + 1) (hn : n + 1 ≤ randMax) (hsize : randMax < 2 ^ 31) (harr : m ≤ arr.length) :
    knuthRandSubset randMax fuel ds arr m n =
      some ((picks ds m 0).map (fun v : ℕ => (v : ℤ)) ++ arr.drop m) := by
  have hindex : 0 + (n + 1) ≤ 2 ^ 31 := by omega
  have hloop := knuthLoop_eq [] arr hfuel hds hm hn hsize hindex harr
  rwa [knuthRandSubset, Nat.mod_eq_of_lt (by omega)]

/-- The loop ends with `m` increasing values from 0 to `n` in the array, and all of them are
equally likely. -/
theorem knuthRandSubset_uniform (hfuel : n + 1 < fuel) (hm : m ≤ n + 1) (hn : n + 1 ≤ randMax)
    (hsize : randMax < 2 ^ 31) (harr : m ≤ arr.length) :
    (∀ ds ∈ all (falling (n + 1)), ∃ s : List ℕ,
      knuthRandSubset randMax fuel ds arr m n =
          some (s.map (fun v : ℕ => (v : ℤ)) ++ arr.drop m) ∧
        s.length = m ∧ s.Pairwise (· < ·) ∧ ∀ v ∈ s, v ≤ n) ∧
    ∀ s : List ℕ, s.length = m → s.Pairwise (· < ·) → (∀ v ∈ s, v ≤ n) →
      (probability (falling (n + 1)) fun ds => knuthRandSubset randMax fuel ds arr m n =
          some (s.map (fun v : ℕ => (v : ℤ)) ++ arr.drop m)) = 1 / (n + 1).choose m := by
  constructor
  · intro ds hds
    refine ⟨picks ds m 0, knuthRandSubset_eq hfuel hds hm hn hsize harr, length_picks hds hm,
      sorted_picks hds, fun v hv => ?_⟩
    have hrange := mem_picks hds hv
    omega
  · intro s hlen hs hmem
    have hiff (ds : List ℕ) (hds : ds ∈ all (falling (n + 1))) :
        knuthRandSubset randMax fuel ds arr m n =
          some (s.map (fun v : ℕ => (v : ℤ)) ++ arr.drop m) ↔ picks ds m 0 = s := by
      rw [knuthRandSubset_eq hfuel hds hm hn hsize harr, Option.some.injEq,
        List.append_cancel_right_eq]
      exact (List.map_injective_iff.mpr Int.ofNat_injective).eq_iff
    have hbelow : ∀ v ∈ s, 0 ≤ v ∧ v < 0 + (n + 1) := by
      intro v hv
      have hle := hmem v hv
      omega
    have hprob := probability_picks hs hlen hbelow
    rw [probability] at hprob ⊢
    rw [count_congr hiff, hprob]

theorem knuthRandSubset_uniform_two :
    (probability (falling (2 + 1)) fun ds => knuthRandSubset 32767 4 ds [7, 7] 2 2 =
      some ([0, 2].map (fun v : ℕ => (v : ℤ)) ++ [7, 7].drop 2)) = 1 / (2 + 1).choose 2 :=
  (knuthRandSubset_uniform (by decide) (by decide) (by decide) (by decide) (by decide)).2 [0, 2]
    rfl (by decide) (by decide)

end InterviewQuestions.UniqueBoundedRand

import InterviewQuestions.Library.CountingLoop
import InterviewQuestions.Library.Swaps
import Mathlib.Algebra.GroupWithZero.Nat
import Mathlib.Algebra.Ring.Int.Defs
import Mathlib.Order.Bounds.Basic

/-! `recursion_dp/min_swaps/solution.c`. The results come with the array as the calls leave it;
there is none where an index is out of range or a value of the type `int` is too large. -/
namespace InterviewQuestions.MinSwaps

open Library

/-- The loop that compares the arrays, with `count` places left from `i` on. -/
def firstDifference (source target : List Int32) : ℕ → ℕ → Option ℕ
  | 0, i => some i
  | count + 1, i => do
      let x ← source[i]?
      let y ← target[i]?
      if x = y then firstDifference source target count (i + 1) else return i

/-- `swaps + 1` -/
def increment (swaps : ℤ) : Option ℤ := if swaps < 2147483647 then some (swaps + 1) else none

/-- The recursion is at most `depth` calls deep. `from` and `to` are `source` and `target`. -/
def minSwapsAux (target : List Int32) (sz : ℕ) :
    ℕ → List Int32 → ℕ → ℤ → Option (ℤ × List Int32)
  | 0, _, _, _ => none
  | depth + 1, source, curr, swaps =>
      if curr = sz then do
        let i ← firstDifference source target sz 0
        return (if i < sz then -1 else swaps, source)
      else do
        let (res, source) ← minSwapsAux target sz depth source (curr + 1) swaps
        (List.range' (curr + 1) (sz - (curr + 1))).foldlM (fun (res, source) i => do
          let source ← swap source curr i
          let (s, source) ← minSwapsAux target sz depth source (curr + 1) (← increment swaps)
          let res := if res = -1 ∨ s ≠ -1 ∧ s < res then s else res
          let source ← swap source curr i
          return (res, source)) (res, source)

def minSwaps (source target : List Int32) (sz : ℕ) : Option (ℤ × List Int32) :=
  minSwapsAux target sz (sz + 1) source 0 0

/-! The calls try all sequences of swaps that settle one place after another. -/

variable {source target front front' xs ys : List Int32} {x y z : Int32} {S T : Set ℤ}
  {r s swaps : ℤ} {depth i j : ℕ}

/-- `-1` stands for no element. -/
def Best (S : Set ℤ) (r : ℤ) : Prop := IsLeast S r ∨ S = ∅ ∧ r = -1

/-- The comparison with the best result so far. -/
theorem Best.union (hS : Best S r) (hT : Best T s) (hr : ∀ n ∈ S, 0 ≤ n) (hs : ∀ n ∈ T, 0 ≤ n) :
    Best (S ∪ T) (if r = -1 ∨ s ≠ -1 ∧ s < r then s else r) := by
  rcases hS with hS | ⟨rfl, rfl⟩
  · have hr := hr r hS.1
    rcases hT with hT | ⟨rfl, rfl⟩
    · have hs := hs s hT.1
      have hmin : (if r = -1 ∨ s ≠ -1 ∧ s < r then s else r) = min r s := by
        split <;> omega
      rw [hmin]
      exact .inl (hS.union hT)
    · rw [if_neg (by omega), Set.union_empty]
      exact .inl hS
  · rw [if_pos (.inl rfl), Set.empty_union]
    exact hT

/-- What is returned for the sequences of swaps from `xs` to `ys` after `swaps` others. -/
def Totals (xs ys : List Int32) (swaps : ℤ) : Set ℤ :=
  {n | ∃ m : ℕ, SwappedInOrder m xs ys ∧ swaps + m = n}

theorem nonneg_of_mem_totals (hswaps : 0 ≤ swaps) {n : ℤ} (hn : n ∈ Totals xs ys swaps) :
    0 ≤ n := by
  obtain ⟨m, -, rfl⟩ := hn
  omega

/-- The same, when the places before `xs` are settled; those before `ys` are `front'`. -/
def Found (front front' xs ys : List Int32) (swaps : ℤ) : Set ℤ :=
  {n | front = front' ∧ n ∈ Totals xs ys swaps}

theorem nonneg_of_mem_found (hswaps : 0 ≤ swaps) {n : ℤ} (hn : n ∈ Found front front' xs ys swaps) :
    0 ≤ n := nonneg_of_mem_totals hswaps hn.2

theorem firstDifference_spec {count : ℕ} (hlen : source.length = target.length)
    (hi : i + count = source.length) (heq : source.take i = target.take i) :
    ∃ k, firstDifference source target count i = some k ∧
      (source.length ≤ k ↔ source = target) := by
  induction count generalizing i with
  | zero =>
    have hi : source.length ≤ i := Nat.le_of_eq hi.symm
    refine ⟨i, rfl, iff_of_true hi ?_⟩
    rwa [List.take_of_length_le hi, List.take_of_length_le (hlen ▸ hi)] at heq
  | succ count ih =>
    have hs : i < source.length := by omega
    have ht : i < target.length := hlen ▸ hs
    rw [firstDifference, List.getElem?_eq_getElem hs, List.getElem?_eq_getElem ht]
    simp only [Option.bind_eq_bind, Option.bind_some]
    by_cases hxy : source[i] = target[i]
    · rw [if_pos hxy]
      apply ih (by omega)
      rw [List.take_succ_eq_append_getElem hs, List.take_succ_eq_append_getElem ht, heq, hxy]
    · rw [if_neg hxy]
      refine ⟨i, rfl, iff_of_false (Nat.not_le.mpr hs) ?_⟩
      rintro rfl
      exact hxy rfl

/-- What has been found when the first `j` later places have been tried. -/
def Tried (front front' : List Int32) (x : Int32) (xs : List Int32) (y : Int32) (ys : List Int32)
    (swaps : ℤ) (j : ℕ) : Set ℤ :=
  {n | n ∈ Found (front ++ [x]) (front' ++ [y]) xs ys swaps ∨ ∃ i < j, ∃ z, xs[i]? = some z ∧
    n ∈ Found (front ++ [z]) (front' ++ [y]) (xs.set i x) ys (swaps + 1)}

theorem tried_zero : Tried front front' x xs y ys swaps 0 =
    Found (front ++ [x]) (front' ++ [y]) xs ys swaps := by
  ext n
  simp [Tried]

theorem tried_succ (hj : xs[j]? = some z) : Tried front front' x xs y ys swaps (j + 1) =
    Tried front front' x xs y ys swaps j ∪
      Found (front ++ [z]) (front' ++ [y]) (xs.set j x) ys (swaps + 1) := by
  ext n
  constructor
  · rintro (hn | ⟨i, hi, z', hz, hn⟩)
    · exact .inl (.inl hn)
    · rcases Nat.lt_succ_iff_lt_or_eq.mp hi with hlt | rfl
      · exact .inl (.inr ⟨i, hlt, z', hz, hn⟩)
      · cases hj.symm.trans hz
        exact .inr hn
  · rintro ((hn | ⟨i, hi, z', hz, hn⟩) | hn)
    · exact .inl hn
    · exact .inr ⟨i, Nat.lt_succ_of_lt hi, z', hz, hn⟩
    · exact .inr ⟨j, Nat.lt_succ_self j, z, hj, hn⟩

theorem tried_length : Tried front front' x xs y ys swaps xs.length =
    Found front front' (x :: xs) (y :: ys) swaps := by
  ext n
  constructor
  · rintro (⟨hfront, m, hm, rfl⟩ | ⟨i, hi, z, hz, hfront, m, hm, rfl⟩)
    · obtain ⟨rfl, rfl⟩ := List.append_singleton_inj.mp hfront
      exact ⟨rfl, m, hm.keep x, rfl⟩
    · obtain ⟨rfl, rfl⟩ := List.append_singleton_inj.mp hfront
      exact ⟨rfl, m + 1, hm.exchange hz, by omega⟩
  · rintro ⟨rfl, m, hm, rfl⟩
    cases hm with
    | keep x hm => exact .inl ⟨rfl, m, hm, rfl⟩
    | exchange ha hm =>
      refine .inr ⟨_, (List.getElem?_eq_some_iff.mp ha).1, y, ha, rfl, _, hm, ?_⟩
      omega

theorem nonneg_of_mem_tried (hswaps : 0 ≤ swaps) {n : ℤ}
    (hn : n ∈ Tried front front' x xs y ys swaps j) : 0 ≤ n := by
  rcases hn with hn | ⟨i, -, z, -, hn⟩
  · exact nonneg_of_mem_found hswaps hn
  · exact nonneg_of_mem_found (by omega) hn

/-- All places are settled. -/
theorem best_found_nil (swaps : ℤ) :
    Best (Found front front' [] [] swaps) (if front = front' then swaps else -1) := by
  by_cases hfront : front = front'
  · rw [if_pos hfront]
    refine .inl ⟨⟨hfront, 0, .nil, by omega⟩, ?_⟩
    rintro n ⟨-, m, -, rfl⟩
    omega
  · rw [if_neg hfront]
    exact .inr ⟨Set.eq_empty_of_forall_notMem fun n hn => hfront hn.1, rfl⟩

/-- At the end the whole arrays are compared. -/
theorem compared_best (hfront : front.length = front'.length) (swaps : ℤ) :
    ∃ s, (do
        let i ← firstDifference front front' front.length 0
        return (if i < front.length then -1 else swaps, front)) = some s ∧
      s.2 = front ∧ Best (Found front front' [] [] swaps) s.1 := by
  obtain ⟨k, hk, hiff⟩ := firstDifference_spec hfront (Nat.zero_add _) rfl
  rw [hk]
  refine ⟨_, rfl, rfl, ?_⟩
  have hres : (if k < front.length then -1 else swaps) =
      if front = front' then swaps else -1 := by
    by_cases hk : k < front.length
    · rw [if_pos hk, if_neg (fun heq => Nat.not_le.mpr hk (hiff.mpr heq))]
    · rw [if_neg hk, if_pos (hiff.mp (Nat.not_lt.mp hk))]
  dsimp only
  rw [hres]
  exact best_found_nil swaps

theorem minSwapsAux_best (hfront : front.length = front'.length) (hlen : xs.length = ys.length)
    (hdepth : xs.length < depth) (hswaps : 0 ≤ swaps) (hint : swaps + xs.length ≤ 2 ^ 31) :
    ∃ s, minSwapsAux (front' ++ ys) (front ++ xs).length depth (front ++ xs) front.length swaps =
        some s ∧ s.2 = front ++ xs ∧ Best (Found front front' xs ys swaps) s.1 := by
  induction depth generalizing front front' xs ys swaps with
  | zero => cases hdepth
  | succ depth ih =>
    rw [minSwapsAux]
    cases xs with
    | nil =>
      obtain rfl := List.length_eq_zero_iff.mp hlen.symm
      rw [List.append_nil, List.append_nil, if_pos rfl]
      exact compared_best hfront swaps
    | cons x xs =>
      obtain ⟨y, ys, rfl⟩ := List.exists_cons_of_length_eq_add_one hlen.symm
      have hlen : xs.length = ys.length := Nat.succ.inj hlen
      have hcall (z : Int32) (rest : List Int32) (n : ℤ) (hrest : rest.length = xs.length)
          (hn : 0 ≤ n) (hn' : n + rest.length ≤ 2 ^ 31) :
          ∃ s, minSwapsAux (front' ++ y :: ys) (front ++ x :: xs).length depth (front ++ z :: rest)
            (front.length + 1) n = some s ∧ s.2 = front ++ z :: rest ∧
              Best (Found (front ++ [z]) (front' ++ [y]) rest ys n) s.1 := by
        have h := @ih (front ++ [z]) (front' ++ [y]) rest ys n (by simp [hfront]) (hrest.trans hlen)
          (by simp at hdepth; omega) hn hn'
        simpa [hrest] using h
      have hcount : (front ++ x :: xs).length - (front.length + 1) = xs.length := by
        rw [List.length_append, List.length_cons]
        omega
      rw [if_neg (by simp), hcount]
      apply bind_spec (fun s : ℤ × List Int32 => s.2 = front ++ x :: xs ∧
        Best (Found (front ++ [x]) (front' ++ [y]) xs ys swaps) s.1)
      · exact hcall x xs swaps rfl hswaps (by simp at hint; omega)
      · rintro ⟨res, _⟩ ⟨rfl, hres⟩
        rw [← tried_length]
        apply foldlM_entries_spec fun j r => Best (Tried front front' x xs y ys swaps j) r
        · intro j z res hj hres
          have hjlen : j < xs.length := (List.getElem?_eq_some_iff.mp hj).1
          have hint : swaps + (xs.length + 1 : ℕ) ≤ 2 ^ 31 := hint
          obtain ⟨⟨s, _⟩, hs, rfl, hbest⟩ := hcall z (xs.set j x) (swaps + 1) List.length_set
            (by omega) (by rw [List.length_set]; omega)
          refine ⟨(if res = -1 ∨ s ≠ -1 ∧ s < res then s else res, front ++ x :: xs), ?_, rfl, ?_⟩
          · dsimp only
            rw [swap_append_cons front x hj]
            simp only [Option.bind_eq_bind, Option.bind_some]
            rw [increment, if_pos (by omega), Option.bind_some, hs, Option.bind_some,
              swap_append_cons_back front x hj]
            rfl
          · rw [tried_succ hj]
            exact hres.union hbest (fun n hn => nonneg_of_mem_tried hswaps hn)
              (fun n hn => nonneg_of_mem_found (by omega) hn)
        · rw [tried_zero]
          exact hres

/-! ## The result -/

/-- The least number of swaps of two places that turn the source into the target is returned, and
the source is as it was. -/
def Minimal (source target : List Int32) : Prop :=
  ∃ n : ℕ, minSwaps source target source.length = some ((n : ℤ), source) ∧
    IsLeast {m | Swapped m source target} n

theorem minSwaps_minimal (h : source.Perm target) (hlen : source.length ≤ 2 ^ 31) :
    Minimal source target := by
  obtain ⟨⟨r, _⟩, hrun, rfl, hbest⟩ := minSwapsAux_best (rfl : ([] : List Int32).length = 0)
    h.length_eq (Nat.lt_succ_self _) (le_refl (0 : ℤ)) (by omega)
  obtain ⟨m, hm⟩ := exists_swappedInOrder h
  rcases hbest with ⟨⟨-, n, hn, rfl⟩, hleast⟩ | ⟨hempty, -⟩
  · refine ⟨n, ?_, isLeast_swapped ⟨hn, fun k hk => ?_⟩⟩
    · rw [Int.zero_add] at hrun
      exact hrun
    · have := hleast ⟨rfl, k, hk, rfl⟩
      omega
  · exact absurd (hempty.subset ⟨rfl, m, hm, rfl⟩) (Set.notMem_empty _)

/-- The branch with a swap for every place counts beyond the largest `int`. -/
theorem minSwapsAux_eq_none {sz curr : ℕ} (hcurr : curr ≤ sz) (hswaps : swaps < 2 ^ 31)
    (hlarge : 2 ^ 31 < swaps + (sz - curr : ℕ)) :
    minSwapsAux target sz depth source curr swaps = none := by
  induction depth generalizing source curr swaps with
  | zero => rfl
  | succ depth ih =>
    rw [minSwapsAux, if_neg (by omega)]
    cases minSwapsAux target sz depth source (curr + 1) swaps with
    | none => rfl
    | some s =>
      obtain ⟨res, source⟩ := s
      obtain ⟨count, hcount⟩ : ∃ count, sz - (curr + 1) = count + 1 := ⟨sz - curr - 2, by omega⟩
      simp only [Option.bind_eq_bind, Option.bind_some]
      rw [hcount, List.range'_succ, List.foldlM_cons]
      cases swap source curr (curr + 1) with
      | none => rfl
      | some source =>
        rw [increment]
        by_cases hmax : swaps < 2147483647
        · rw [if_pos hmax]
          simp only [Option.bind_eq_bind, Option.bind_some]
          rw [ih (by omega) (by omega) (by omega)]
          rfl
        · rw [if_neg hmax]
          rfl

theorem minimal_iff (h : source.Perm target) : Minimal source target ↔ source.length ≤ 2 ^ 31 := by
  refine ⟨fun ⟨n, hrun, _⟩ => ?_, minSwaps_minimal h⟩
  by_contra hlarge
  have hnone : minSwaps source target source.length = none :=
    minSwapsAux_eq_none (Nat.zero_le _) (by decide) (by omega)
  cases hnone.symm.trans hrun

theorem minimal_iff_three : [1, 2, 1].Perm ([2, 1, 1] : List Int32) ∧
    (Minimal [1, 2, 1] [2, 1, 1] ↔ ([1, 2, 1] : List Int32).length ≤ 2 ^ 31) :=
  ⟨by decide, minimal_iff (by decide)⟩

theorem not_minimal_replicate :
    ¬ Minimal (List.replicate (2 ^ 31 + 1) 0) (List.replicate (2 ^ 31 + 1) 0) := by
  rintro ⟨n, hrun, -⟩
  have hnone : minSwaps (List.replicate (2 ^ 31 + 1) 0) (List.replicate (2 ^ 31 + 1) 0)
      (List.replicate (2 ^ 31 + 1) (0 : Int32)).length = none := by
    rw [List.length_replicate]
    exact minSwapsAux_eq_none (Nat.zero_le _) (by decide) (by decide)
  cases hnone.symm.trans hrun

end InterviewQuestions.MinSwaps

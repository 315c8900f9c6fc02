import InterviewQuestions.Library.InorderTrees
import Mathlib.Algebra.GroupWithZero.Nat
import Mathlib.Data.Nat.ModEq

/-! `trees_graphs/inorder_to_trees/solution_tree_generator.cpp` lists trees; `possible_trees` in
`solution.c` and `bsts` in `trees_graphs/trees_count/solution.c` count them. -/
namespace InterviewQuestions.InorderToTrees

open Library PointerTree InorderTrees

/-- A value of `i` in a loop from `begin` to before `stop`. -/
abbrev Index (begin stop : ℕ) := {i : ℕ // begin ≤ i ∧ i < stop}

def indices (begin stop : ℕ) : List (Index begin stop) :=
  (List.range' begin (stop - begin)).pmap Subtype.mk fun i hi => by
    have := List.mem_range'_1.mp hi
    omega

def generateTreesAux (inorder : List Int32) (begin stop : ℕ) (hstop : stop ≤ inorder.length) :
    List (BinaryTree Int32) :=
  if begin < stop then
    (indices begin stop).flatMap fun (i : Index begin stop) =>
      (generateTreesAux inorder begin i (i.2.2.trans_le hstop).le).flatMap fun left =>
        (generateTreesAux inorder (i + 1) stop hstop).map fun right =>
          .node (inorder.get ⟨i, i.2.2.trans_le hstop⟩) left right
  else [.nil]
termination_by stop - begin
decreasing_by
  · have := i.2
    omega
  · have := i.2
    omega

def generateTrees (inorder : List Int32) : List (BinaryTree Int32) :=
  generateTreesAux inorder 0 inorder.length (Nat.le_refl _)

def possibleTreesAux (begin stop : ℕ) : UInt32 :=
  if begin < stop then
    (indices begin stop).foldl
      (fun res (i : Index begin stop) =>
        res + possibleTreesAux begin i * possibleTreesAux (i + 1) stop) 0
  else 1
termination_by stop - begin
decreasing_by
  · have := i.2
    omega
  · have := i.2
    omega

def possibleTrees (treeSize : ℕ) : UInt32 := possibleTreesAux 0 treeSize

/-- `bsts` for the value of its argument. All arguments that follow from it are smaller. -/
def bstsOf (n : ℕ) : UInt64 :=
  if n ≤ 1 then 1
  else
    (indices 0 n).foldl (fun res (i : Index 0 n) => res + bstsOf i * bstsOf (n - i - 1)) 0
termination_by n
decreasing_by
  · exact i.2.2
  · have := i.2
    omega

def bsts (n : UInt32) : UInt64 := bstsOf n.toNat

variable {xs : List Int32} {begin stop fuel n : ℕ}

theorem map_indices (begin stop : ℕ) :
    (indices begin stop).map Subtype.val = List.range' begin (stop - begin) := by
  rw [indices, List.map_pmap, List.pmap_eq_map, List.map_id'']
  exact fun _ => rfl

/-! ## The list -/

/-- The elements from `begin` to before `stop`. -/
def slice (xs : List Int32) (begin stop : ℕ) : List Int32 := (xs.drop begin).take (stop - begin)

theorem slice_cons (h : begin < stop) (hstop : stop ≤ xs.length) :
    slice xs begin stop = xs.getD begin 0 :: slice xs (begin + 1) stop := by
  have hlen : begin < xs.length := h.trans_le hstop
  have hsub : stop - begin = stop - (begin + 1) + 1 := by omega
  rw [slice, slice, List.drop_eq_getElem_cons hlen, hsub, List.take_succ_cons,
    List.getD_eq_getElem?_getD, List.getElem?_eq_getElem hlen]
  rfl

theorem slice_self (xs : List Int32) (begin : ℕ) : slice xs begin begin = [] := by
  rw [slice, Nat.sub_self, List.take_zero]

/-- Each element with what is before it and what is behind it. -/
theorem splits_slice (hstop : stop ≤ xs.length) :
    Grouping.splits (slice xs begin stop) = (List.range' begin (stop - begin)).map fun i =>
      (slice xs begin i, xs.getD i 0, slice xs (i + 1) stop) := by
  obtain ⟨n, hn⟩ : ∃ n, stop - begin = n := ⟨_, rfl⟩
  induction n generalizing begin with
  | zero =>
    rw [hn, slice, hn]
    rfl
  | succ n ih =>
    have hsub : stop - (begin + 1) = n := by omega
    rw [slice_cons (by omega) hstop, Grouping.splits, ih hsub, hn, hsub, List.range'_succ,
      List.map_cons, List.map_map, slice_self]
    refine congrArg _ (List.map_congr_left fun i hi => ?_)
    have hi := List.mem_range'_1.mp hi
    rw [slice_cons (by omega : begin < i) (by omega)]
    rfl

theorem generateTreesAux_eq (hstop : stop ≤ xs.length) (hfuel : stop - begin < fuel) :
    generateTreesAux xs begin stop hstop = trees fuel (slice xs begin stop) := by
  induction fuel generalizing begin stop with
  | zero => omega
  | succ fuel ih =>
    rw [generateTreesAux]
    by_cases h : begin < stop
    · have hcons := slice_cons h hstop
      rw [if_pos h, hcons, trees, ← hcons, splits_slice hstop, ← map_indices, List.flatMap_map,
        List.flatMap_map]
      apply List.flatMap_congr
      intro i _
      have hi := i.2
      have hget : xs.get ⟨i, hi.2.trans_le hstop⟩ = xs.getD i 0 := by
        rw [List.getD_eq_getElem?_getD, List.getElem?_eq_getElem (hi.2.trans_le hstop)]
        rfl
      rw [ih (hi.2.trans_le hstop).le (by omega), ih hstop (by omega), hget]
    · have hsub : stop - begin = 0 := by omega
      rw [if_neg h, slice, hsub]
      rfl

/-! ## The counts -/

theorem sum_indices (begin n : ℕ) (g : ℕ → ℕ) :
    ((indices begin (begin + n)).map fun (i : Index begin (begin + n)) => g i).sum =
      ((List.range n).map fun i => g (begin + i)).sum := by
  have hmap : (indices begin (begin + n)).map (fun (i : Index begin (begin + n)) => g i) =
      ((indices begin (begin + n)).map Subtype.val).map g := by
    rw [List.map_map]
    rfl
  rw [hmap, map_indices, Nat.add_sub_cancel_left, List.range'_eq_map_range, List.map_map]
  rfl

theorem possibleTreesAux_eq (begin n : ℕ) :
    possibleTreesAux begin (begin + n) = UInt32.ofNat (catalan n) := by
  induction n using Nat.strong_induction_on generalizing begin with
  | h n ih =>
    rw [possibleTreesAux]
    cases n with
    | zero => simp
    | succ n =>
      have hside (i : Index begin (begin + (n + 1))) :
          possibleTreesAux begin i * possibleTreesAux (i + 1) (begin + (n + 1)) =
            UInt32.ofNat (catalan (i - begin) * catalan (n - (i - begin))) := by
        obtain ⟨hle, hlt⟩ := i.2
        have hleft := ih (i - begin) (by omega) begin
        have hright := ih (n - (i - begin)) (by omega) (i + 1)
        rw [Nat.add_sub_cancel' hle] at hleft
        have hstop : i + 1 + (n - (i - begin)) = begin + (n + 1) := by omega
        rw [hstop] at hright
        rw [hleft, hright, UInt32.ofNat_mul]
      have hcast := foldl_cast UInt32.ofNat_add
        (fun i (_ : i ∈ indices begin (begin + (n + 1))) => hside i) 0
      rw [if_pos (by omega)]
      refine hcast.trans (congrArg UInt32.ofNat ?_)
      rw [sum_indices begin (n + 1) fun i => catalan (i - begin) * catalan (n - (i - begin)),
        Nat.zero_add, catalan_succ_range]
      simp only [Nat.add_sub_cancel_left]

theorem bstsOf_eq (n : ℕ) : bstsOf n = UInt64.ofNat (catalan n) := by
  induction n using Nat.strong_induction_on with
  | h n ih =>
    rw [bstsOf]
    by_cases hn : n ≤ 1
    · rw [if_pos hn]
      obtain rfl | rfl : n = 0 ∨ n = 1 := by omega
      · rw [catalan_zero]
        rfl
      · rw [catalan_one]
        rfl
    · obtain ⟨m, rfl⟩ : ∃ m, n = m + 1 := ⟨n - 1, by omega⟩
      have hside (i : Index 0 (m + 1)) : bstsOf i * bstsOf (m + 1 - i - 1) =
          UInt64.ofNat (catalan i * catalan (m - i)) := by
        obtain ⟨-, hlt⟩ := i.2
        have hsub : m + 1 - i - 1 = m - i := by omega
        rw [hsub, ih i hlt, ih (m - i) (by omega), UInt64.ofNat_mul]
      have hcast := foldl_cast UInt64.ofNat_add
        (fun i (_ : i ∈ indices 0 (m + 1)) => hside i) 0
      have hsum := sum_indices 0 (m + 1) fun i => catalan i * catalan (m - i)
      rw [Nat.zero_add] at hsum
      rw [if_neg hn]
      refine hcast.trans (congrArg UInt64.ofNat ?_)
      rw [hsum, Nat.zero_add, catalan_succ_range]
      simp only [Nat.zero_add]

/-! ## All trees -/

theorem generateTrees_eq (xs : List Int32) : generateTrees xs = trees (xs.length + 1) xs := by
  have hslice : slice xs 0 xs.length = xs := by
    rw [slice, List.drop_zero, Nat.sub_zero, List.take_length]
  have hfuel : xs.length - 0 < xs.length + 1 := Nat.lt_succ_self _
  rw [generateTrees, generateTreesAux_eq (Nat.le_refl _) hfuel, hslice]

theorem length_generateTrees (xs : List Int32) :
    (generateTrees xs).length = catalan xs.length := by
  rw [generateTrees_eq, length_trees (Nat.lt_succ_self _)]

/-- The trees with these values in order, each of them once. `possible_trees` gives their number up
to overflow, and so does `bsts` where the number of values is an `unsigned`. -/
theorem generateTrees_spec (xs : List Int32) :
    (∀ t, t ∈ generateTrees xs ↔ inorder t = xs) ∧ (generateTrees xs).Nodup ∧
      (generateTrees xs).length ≡ (possibleTrees xs.length).toNat [MOD 2 ^ 32] ∧
        (xs.length < 2 ^ 32 →
          (generateTrees xs).length ≡ (bsts (UInt32.ofNat xs.length)).toNat [MOD 2 ^ 64]) := by
  refine ⟨fun t => ?_, ?_, ?_, fun hlen => ?_⟩
  · rw [generateTrees_eq, mem_trees (Nat.lt_succ_self _)]
  · rw [generateTrees_eq]
    exact nodup_trees (Nat.lt_succ_self _)
  · have hcount := possibleTreesAux_eq 0 xs.length
    rw [Nat.zero_add] at hcount
    rw [length_generateTrees, possibleTrees, hcount, UInt32.toNat_ofNat']
    exact (Nat.mod_modEq _ _).symm
  · rw [length_generateTrees, bsts, bstsOf_eq, UInt64.toNat_ofNat', UInt32.toNat_ofNat',
      Nat.mod_eq_of_lt hlen]
    exact (Nat.mod_modEq _ _).symm

theorem generateTrees_spec_two :
    (∀ t, t ∈ generateTrees [1, 2] ↔ inorder t = [1, 2]) ∧ (generateTrees [1, 2]).Nodup ∧
      (generateTrees [1, 2]).length ≡ (possibleTrees 2).toNat [MOD 2 ^ 32] ∧
        (generateTrees [1, 2]).length ≡ (bsts 2).toNat [MOD 2 ^ 64] := by
  obtain ⟨hmem, hnodup, hpossible, hbsts⟩ := generateTrees_spec [1, 2]
  exact ⟨hmem, hnodup, hpossible, hbsts (by decide)⟩

/-- An array of 2³² elements has an even number of trees, but `bsts` gets 0 and returns 1. -/
theorem not_modEq_bsts (h : xs.length = 2 ^ 32) :
    ¬ (generateTrees xs).length ≡ (bsts (UInt32.ofNat xs.length)).toNat [MOD 2 ^ 64] := by
  have hbsts : (bsts (UInt32.ofNat (2 ^ 32))).toNat = 1 := by
    have hzero : UInt32.ofNat (2 ^ 32) = 0 := by decide
    rw [hzero, bsts, bstsOf_eq, UInt32.toNat_zero, catalan_zero]
    rfl
  have heven : 2 ∣ catalan (2 ^ 32) := even_catalan (by decide) (by decide)
  rw [length_generateTrees, h, hbsts]
  intro hmod
  unfold Nat.ModEq at hmod
  omega

theorem not_all_modEq_bsts : ¬ ∀ xs : List Int32,
    (generateTrees xs).length ≡ (bsts (UInt32.ofNat xs.length)).toNat [MOD 2 ^ 64] := fun h =>
  not_modEq_bsts (List.length_replicate (a := (0 : Int32))) (h _)

end InterviewQuestions.InorderToTrees

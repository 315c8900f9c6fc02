import Mathlib.Data.List.Count
import Mathlib.Data.Tree.Basic
import Mathlib.Order.Lattice

/-! Search trees that count. A node has the number of times that its value was inserted,
and the number of insertions that went on to its left. -/
namespace InterviewQuestions.Library.CountingTree

structure Counter (κ : Type*) where
  value : κ
  occurrences : ℕ
  below : ℕ

variable {κ : Type*} [LinearOrder κ]

def record (x : κ) : BinaryTree (Counter κ) → BinaryTree (Counter κ)
  | .nil => .node ⟨x, 1, 0⟩ .nil .nil
  | .node c l r =>
      if x = c.value then .node { c with occurrences := c.occurrences + 1 } l r
      else if x < c.value then .node { c with below := c.below + 1 } (record x l) r
      else .node c l (record x r)

def build (xs : List κ) : BinaryTree (Counter κ) := xs.foldl (fun t x => record x t) .nil

/-- The counter of `x`, with `less` and what the way to it leaves on the left. -/
def find (x : κ) : BinaryTree (Counter κ) → ℕ → Option (Counter κ × ℕ)
  | .nil, _ => none
  | .node c l r, less =>
      if c.value = x then some (c, less)
      else if x < c.value then find x l less
      else find x r (less + (c.below + c.occurrences))

theorem build_append (xs : List κ) (x : κ) : build (xs ++ [x]) = record x (build xs) := by
  unfold build
  rw [List.foldl_append]
  rfl

/-- The values after the first one only pass its node on the way to their own. -/
theorem foldl_record_node (xs : List κ) (c : Counter κ) (l r : BinaryTree (Counter κ)) :
    xs.foldl (fun t x => record x t) (.node c l r) =
      .node ⟨c.value, c.occurrences + xs.count c.value, c.below + xs.countP (· < c.value)⟩
        ((xs.filter (· < c.value)).foldl (fun t x => record x t) l)
        ((xs.filter (c.value < ·)).foldl (fun t x => record x t) r) := by
  induction xs generalizing c l r with
  | nil => rfl
  | cons x xs ih =>
    rw [List.foldl_cons, record]
    rcases lt_trichotomy x c.value with hlt | rfl | hgt
    · rw [if_neg hlt.ne, if_pos hlt, ih]
      simp [hlt, hlt.ne, hlt.not_gt, Nat.add_assoc, Nat.add_comm 1]
    · rw [if_pos rfl, ih]
      simp [Nat.add_assoc, Nat.add_comm 1]
    · rw [if_neg hgt.ne', if_neg hgt.not_gt, ih]
      simp [hgt, hgt.ne', hgt.not_gt]

theorem build_cons (a : κ) (xs : List κ) :
    build (a :: xs) = .node ⟨a, 1 + xs.count a, xs.countP (· < a)⟩ (build (xs.filter (· < a)))
      (build (xs.filter (a < ·))) := by
  have hnode := foldl_record_node xs ⟨a, 1, 0⟩ .nil .nil
  rwa [Nat.zero_add] at hnode

/-- The values up to `x`, by those that go left of `a`, those equal to it and those right of it. -/
theorem countP_split {a x : κ} (h : a ≤ x) (xs : List κ) :
    xs.countP (· ≤ x) =
      xs.countP (· < a) + xs.count a + (xs.filter (a < ·)).countP (· ≤ x) := by
  induction xs with
  | nil => rfl
  | cons b xs ih =>
    rcases lt_trichotomy b a with hlt | rfl | hgt
    · simp [hlt, hlt.ne, hlt.not_gt, (hlt.trans_le h).le, ih]
      omega
    · simp [h, ih]
      omega
    · by_cases hb : b ≤ x
      · simp [hgt, hgt.ne', hgt.not_gt, hb, ih]
        omega
      · simp [hgt, hgt.ne', hgt.not_gt, hb, ih]

/-- Below `a` nothing is lost of the values up to `x`. -/
theorem countP_filter_lt {a x : κ} (h : x < a) (xs : List κ) :
    (xs.filter (· < a)).countP (· ≤ x) = xs.countP (· ≤ x) := by
  rw [List.countP_filter]
  apply List.countP_congr
  intro b _
  simp only [Bool.and_eq_true, decide_eq_true_eq]
  exact and_iff_left_of_imp fun hb => hb.trans_lt h

/-- The counts on the way to `x` are those of the values up to it. -/
theorem find_build {x : κ} (xs : List κ) (less : ℕ) (h : x ∈ xs) :
    ∃ c less', find x (build xs) less = some (c, less') ∧
      less' + c.below + c.occurrences = less + xs.countP (· ≤ x) := by
  induction hn : xs.length using Nat.strongRecOn generalizing xs less with
  | ind n ih =>
    cases xs with
    | nil => cases h
    | cons a xs =>
      rw [List.length_cons] at hn
      rw [build_cons, find]
      have hfilter (p : κ → Bool) : (xs.filter p).length < n :=
        (List.length_filter_le p xs).trans_lt (by omega)
      rcases lt_trichotomy x a with hlt | rfl | hgt
      · have hmem : x ∈ xs.filter (· < a) := by
          rw [List.mem_filter]
          exact ⟨(List.mem_cons.mp h).resolve_left hlt.ne, decide_eq_true hlt⟩
        have hnext := ih _ (hfilter _) _ less hmem rfl
        rw [if_neg hlt.ne', if_pos hlt]
        rwa [countP_filter_lt hlt, ← List.countP_cons_of_neg (by simpa using hlt)] at hnext
      · refine ⟨_, _, if_pos rfl, ?_⟩
        have hsplit := countP_split (le_refl x) xs
        have hright : (xs.filter (x < ·)).countP (· ≤ x) = 0 := by
          rw [List.countP_filter, List.countP_eq_zero]
          intro b _
          simp
        rw [List.countP_cons_of_pos (by simp), hsplit, hright]
        simp only
        omega
      · have hmem : x ∈ xs.filter (a < ·) := by
          rw [List.mem_filter]
          exact ⟨(List.mem_cons.mp h).resolve_left hgt.ne', decide_eq_true hgt⟩
        rcases ih _ (hfilter _) _ (less + (xs.countP (· < a) + (1 + xs.count a))) hmem rfl with
          ⟨c, less', hfind, hcount⟩
        refine ⟨c, less', ?_, ?_⟩
        · rw [if_neg hgt.ne, if_neg hgt.not_gt]
          exact hfind
        · rw [hcount, List.countP_cons_of_pos (by simpa using hgt.le), countP_split hgt.le xs]
          omega

theorem find_build_of_notMem {x : κ} (xs : List κ) (less : ℕ) (h : x ∉ xs) :
    find x (build xs) less = none := by
  induction hn : xs.length using Nat.strongRecOn generalizing xs less with
  | ind n ih =>
    cases xs with
    | nil => rfl
    | cons a xs =>
      rw [List.length_cons] at hn
      have hfilter (p : κ → Bool) : (xs.filter p).length < n :=
        (List.length_filter_le p xs).trans_lt (by omega)
      have hmem (p : κ → Bool) : x ∉ xs.filter p := fun hx =>
        h (List.mem_cons_of_mem a (List.mem_filter.mp hx).1)
      have hne : a ≠ x := fun ha => h (ha ▸ List.mem_cons_self)
      rw [build_cons, find, if_neg hne]
      split
      · exact ih _ (hfilter _) _ _ (hmem _) rfl
      · exact ih _ (hfilter _) _ _ (hmem _) rfl

end InterviewQuestions.Library.CountingTree

import InterviewQuestions.Library.Grouping
import InterviewQuestions.Library.PointerTree

/-! All binary trees over a list. -/
namespace InterviewQuestions.Library.InorderTrees

open Grouping PointerTree

variable {α R : Type*} {xs : List α} {t : BinaryTree α} {fuel : ℕ}

/-- The trees with fewer than `fuel` nodes which have the list as their nodes in order. -/
def trees : ℕ → List α → List (BinaryTree α)
  | 0, _ => []
  | _ + 1, [] => [.nil]
  | fuel + 1, x :: xs =>
      (splits (x :: xs)).flatMap fun p =>
        (trees fuel p.1).flatMap fun l => (trees fuel p.2.2).map fun r => .node p.2.1 l r

theorem mem_trees (hfuel : xs.length < fuel) : t ∈ trees fuel xs ↔ inorder t = xs := by
  induction fuel generalizing xs t with
  | zero => cases hfuel
  | succ fuel ih =>
    cases xs with
    | nil =>
      rw [trees, List.mem_singleton]
      cases t with
      | nil => simp [inorder]
      | node a l r => simp [inorder]
    | cons x xs =>
      simp only [trees, List.mem_flatMap, List.mem_map]
      constructor
      · rintro ⟨⟨front, a, back⟩, hsplit, l, hl, r, hr, rfl⟩
        obtain ⟨hfront, hback⟩ := lt_of_mem_splits hfuel hsplit
        rw [inorder, (ih hfront).mp hl, (ih hback).mp hr]
        exact (mem_splits.mp hsplit).symm
      · intro h
        cases t with
        | nil => cases h
        | node a l r =>
          have hsplit : (inorder l, a, inorder r) ∈ splits (x :: xs) := mem_splits.mpr h.symm
          obtain ⟨hfront, hback⟩ := lt_of_mem_splits hfuel hsplit
          exact ⟨_, hsplit, l, (ih hfront).mpr rfl, r, (ih hback).mpr rfl, rfl⟩

theorem nodup_trees (hfuel : xs.length < fuel) : (trees fuel xs).Nodup := by
  induction fuel generalizing xs with
  | zero => cases hfuel
  | succ fuel ih =>
    cases xs with
    | nil => exact List.nodup_singleton _
    | cons x xs =>
      have hlen {p} := lt_of_mem_splits (p := p) hfuel
      apply nodup_combine (nodup_splits _) (fun p hp => ih (hlen hp).1)
        (fun p hp => ih (hlen hp).2)
      rintro ⟨front, a, back⟩ hp ⟨front', a', back'⟩ hp' l hl l' hl' r hr r' hr' h
      cases h
      have hl := (mem_trees (hlen hp).1).mp hl
      have hl' := (mem_trees (hlen hp').1).mp hl'
      have hr := (mem_trees (hlen hp).2).mp hr
      have hr' := (mem_trees (hlen hp').2).mp hr'
      exact ⟨Prod.ext (hl.symm.trans hl') (Prod.ext rfl (hr.symm.trans hr')), rfl, rfl⟩

theorem length_trees (hfuel : xs.length < fuel) : (trees fuel xs).length = catalan xs.length := by
  induction fuel generalizing xs with
  | zero => cases hfuel
  | succ fuel ih =>
    cases xs with
    | nil => simp [trees]
    | cons x xs =>
      apply length_flatMap_splits
      intro p hp
      obtain ⟨hfront, hback⟩ := lt_of_mem_splits hfuel hp
      simp [List.length_flatMap, ih hfront, ih hback]

/-! ## The Catalan numbers -/

theorem catalan_succ_range (n : ℕ) :
    catalan (n + 1) = ((List.range (n + 1)).map fun i => catalan i * catalan (n - i)).sum := by
  have hlist : ((List.Nat.antidiagonal n).map fun p => catalan p.1 * catalan p.2).sum =
      ((List.range (n + 1)).map fun i => catalan i * catalan (n - i)).sum := by
    rw [List.Nat.antidiagonal, List.map_map]
    rfl
  rw [catalan_succ', ← hlist]
  rfl

/-- The sum may be taken in any type of numbers. -/
theorem foldl_cast [Add R] {cast : ℕ → R} (hadd : ∀ a b, cast (a + b) = cast a + cast b)
    {f : α → R} {g : α → ℕ} {is : List α} (h : ∀ i ∈ is, f i = cast (g i)) (a : ℕ) :
    is.foldl (fun res i => res + f i) (cast a) = cast (a + (is.map g).sum) := by
  induction is generalizing a with
  | nil => rfl
  | cons i is ih =>
    rw [List.foldl_cons, h i List.mem_cons_self, ← hadd,
      ih fun j hj => h j (List.mem_cons_of_mem i hj), List.map_cons, List.sum_cons, Nat.add_assoc]

/-- The Catalan number of an even number is even. -/
theorem even_catalan {n : ℕ} (h : 0 < n) (heven : n % 2 = 0) : 2 ∣ catalan n := by
  have hbinom : 2 ∣ (n + 1) * catalan n := by
    rw [succ_mul_catalan_eq_centralBinom]
    exact Nat.two_dvd_centralBinom_of_one_le h
  have hodd : (n + 1) % 2 = 1 := by omega
  have hcoprime : Nat.Coprime 2 (n + 1) := by
    rw [Nat.Coprime, Nat.gcd_rec, hodd]
    rfl
  exact hcoprime.dvd_of_dvd_mul_left hbinom

end InterviewQuestions.Library.InorderTrees

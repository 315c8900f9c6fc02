import InterviewQuestions.Library.PointerTree
import Mathlib.Algebra.Ring.Int.Defs

/-! `trees_graphs/is_bst/solution.c` -/
namespace InterviewQuestions.IsBst

open Library PointerTree

def isBstAux : BinaryTree Int32 → Int32 → Int32 → Bool
  | .nil, _, _ => true
  | .node key left right, min, max =>
      if ¬ (min < key ∧ key < max) then false
      else if ! isBstAux left min key then false
      else isBstAux right key max

/-- The bounds are `INT_MIN` and `INT_MAX`. -/
def isBst (root : BinaryTree Int32) : Bool := isBstAux root Int32.minValue Int32.maxValue

variable {t l r : BinaryTree Int32} {key min max : Int32}

/-- The keys increase from left to right. -/
def Increasing (t : BinaryTree Int32) : Prop := (inorder t).Pairwise (· < ·)

theorem increasing_node : Increasing (.node key l r) ↔
    (Increasing l ∧ ∀ x ∈ inorder l, x < key) ∧ Increasing r ∧ ∀ x ∈ inorder r, key < x := by
  unfold Increasing
  rw [inorder, List.pairwise_append, List.pairwise_cons]
  constructor
  · rintro ⟨hl, ⟨hright, hr⟩, hacross⟩
    exact ⟨⟨hl, fun x hx => hacross x hx key List.mem_cons_self⟩, hr, hright⟩
  · rintro ⟨⟨hl, hleft⟩, hr, hright⟩
    refine ⟨hl, ⟨hright, hr⟩, fun x hx y hy => ?_⟩
    rcases List.mem_cons.mp hy with rfl | hy
    · exact hleft x hx
    · exact Int32.lt_trans (hleft x hx) (hright y hy)

/-- The bounds themselves do not count as between them. -/
def Between (t : BinaryTree Int32) (min max : Int32) : Prop :=
  ∀ x ∈ inorder t, min < x ∧ x < max

theorem between_node : Between (.node key l r) min max ↔
    (min < key ∧ key < max) ∧ Between l min max ∧ Between r min max := by
  unfold Between
  rw [inorder, List.forall_mem_append, List.forall_mem_cons]
  tauto

theorem isBstAux_node : isBstAux (.node key l r) min max = true ↔
    (min < key ∧ key < max) ∧ isBstAux l min key = true ∧ isBstAux r key max = true := by
  rw [isBstAux]
  by_cases hkey : min < key ∧ key < max
  · rw [if_neg (not_not.mpr hkey)]
    cases isBstAux l min key <;> simp [hkey]
  · rw [if_pos hkey]
    simp [hkey]

theorem isBstAux_iff : isBstAux t min max = true ↔ Increasing t ∧ Between t min max := by
  induction t generalizing min max with
  | nil => simp [isBstAux, Increasing, Between, inorder]
  | node key l r ihl ihr =>
    rw [isBstAux_node, ihl, ihr, increasing_node, between_node]
    constructor
    · rintro ⟨hkey, ⟨hl, hbl⟩, hr, hbr⟩
      refine ⟨⟨⟨hl, fun x hx => (hbl x hx).2⟩, hr, fun x hx => (hbr x hx).1⟩, hkey, ?_, ?_⟩
      · exact fun x hx => ⟨(hbl x hx).1, Int32.lt_trans (hbl x hx).2 hkey.2⟩
      · exact fun x hx => ⟨Int32.lt_trans hkey.1 (hbr x hx).1, (hbr x hx).2⟩
    · rintro ⟨⟨⟨hl, hleft⟩, hr, hright⟩, hkey, hbl, hbr⟩
      exact ⟨hkey, ⟨hl, fun x hx => ⟨(hbl x hx).1, hleft x hx⟩⟩, hr,
        fun x hx => ⟨hright x hx, (hbr x hx).2⟩⟩

/-- No key is one of the two values that serve as bounds. -/
def WithinBounds (t : BinaryTree Int32) : Prop :=
  ∀ x ∈ inorder t, x ≠ Int32.minValue ∧ x ≠ Int32.maxValue

theorem between_iff : Between t Int32.minValue Int32.maxValue ↔ WithinBounds t := by
  refine forall₂_congr fun x _ => and_congr ?_ ?_
  · rw [Int32.lt_iff_toInt_lt, Ne, ← Int32.toInt_inj]
    have := x.minValue_le_toInt
    omega
  · rw [Int32.lt_iff_toInt_lt, Ne, ← Int32.toInt_inj]
    have := x.toInt_le
    omega

/-- `is_bst` is right for the trees whose keys do not increase, and for those others in which no key
is `INT_MIN` or `INT_MAX`. -/
theorem isBst_correct_iff (t : BinaryTree Int32) :
    (isBst t = true ↔ Increasing t) ↔ ¬ Increasing t ∨ WithinBounds t := by
  rw [isBst, isBstAux_iff, between_iff]
  tauto

/-- A tree with the key `INT_MAX` alone. -/
theorem isBst_maxValue : ¬ (isBst (.node 2147483647 .nil .nil) = true ↔
    Increasing (.node 2147483647 .nil .nil)) := by
  have hbst : isBst (.node 2147483647 .nil .nil) = false := by decide
  rw [hbst]
  simp [Increasing, inorder]

end InterviewQuestions.IsBst

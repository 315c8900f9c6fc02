import Mathlib.Data.List.Basic
import Mathlib.Order.Bounds.Basic

/-! The subsequences that two lists have in common. -/
namespace InterviewQuestions.Library.CommonSubsequence

variable {α : Type*} {s xs ys : List α}

def lengths (xs ys : List α) : Set ℕ :=
  {n | ∃ s : List α, s.Sublist xs ∧ s.Sublist ys ∧ s.length = n}

theorem lengths_reverse (xs ys : List α) : lengths xs.reverse ys.reverse = lengths xs ys := by
  ext n
  constructor
  · rintro ⟨s, hx, hy, rfl⟩
    refine ⟨s.reverse, ?_, ?_, List.length_reverse⟩
    · simpa using hx.reverse
    · simpa using hy.reverse
  · rintro ⟨s, hx, hy, rfl⟩
    exact ⟨s.reverse, hx.reverse, hy.reverse, List.length_reverse⟩

variable [DecidableEq α]

/-- A longest one. Where the heads differ, the head of the second list goes only if that keeps
more than to give up the head of the first. -/
def longest : List α → List α → List α
  | x :: xs, y :: ys =>
      if x = y then x :: longest xs ys
      else if (longest (x :: xs) ys).length > (longest xs (y :: ys)).length then
        longest (x :: xs) ys
      else longest xs (y :: ys)
  | _, _ => []
termination_by xs ys => xs.length + ys.length

theorem longest_nil_left (ys : List α) : longest [] ys = [] := by
  rw [longest]
  rintro x xs y ys ⟨⟩

theorem longest_nil_right (xs : List α) : longest xs [] = [] := by
  rw [longest]
  rintro x xs y ys _ ⟨⟩

theorem longest_cons_self (x : α) (xs ys : List α) :
    longest (x :: xs) (x :: ys) = x :: longest xs ys := by
  rw [longest, if_pos rfl]

theorem longest_cons_of_ne {x y : α} (h : x ≠ y) (xs ys : List α) :
    longest (x :: xs) (y :: ys) =
      if (longest (x :: xs) ys).length > (longest xs (y :: ys)).length then longest (x :: xs) ys
      else longest xs (y :: ys) := by
  rw [longest, if_neg h]

theorem longest_sublist (xs ys : List α) :
    (longest xs ys).Sublist xs ∧ (longest xs ys).Sublist ys := by
  induction xs, ys using longest.induct with
  | case1 xs x ys ih =>
    rw [longest_cons_self]
    exact ⟨ih.1.cons_cons x, ih.2.cons_cons x⟩
  | case2 x xs y ys hne hgt ihy ihx =>
    rw [longest_cons_of_ne hne, if_pos hgt]
    exact ⟨ihy.1, ihy.2.trans (List.sublist_cons_self y ys)⟩
  | case3 x xs y ys hne hle ihy ihx =>
    rw [longest_cons_of_ne hne, if_neg hle]
    exact ⟨ihx.1.trans (List.sublist_cons_self x xs), ihx.2⟩
  | case4 xs ys hcons =>
    rw [longest]
    · exact ⟨List.nil_sublist xs, List.nil_sublist ys⟩
    · exact hcons

/-- Where the heads agree, a common subsequence loses at most its head with them. Where they
differ, it does without one of them. -/
theorem length_le_longest (hx : s.Sublist xs) (hy : s.Sublist ys) :
    s.length ≤ (longest xs ys).length := by
  induction xs, ys using longest.induct generalizing s with
  | case1 xs x ys ih =>
    have htail := ih hx.tail hy.tail
    rw [List.length_tail] at htail
    rw [longest_cons_self, List.length_cons]
    omega
  | case2 x xs y ys hne hgt ihy ihx =>
    rw [longest_cons_of_ne hne, if_pos hgt]
    rcases List.sublist_cons_iff.mp hx with hxs | ⟨rest, rfl, -⟩
    · exact (ihx hxs hy).trans hgt.le
    · exact ihy hx (hy.of_cons_of_ne hne)
  | case3 x xs y ys hne hle ihy ihx =>
    rw [longest_cons_of_ne hne, if_neg hle]
    rcases List.sublist_cons_iff.mp hx with hxs | ⟨rest, rfl, -⟩
    · exact ihx hxs hy
    · exact (ihy hx (hy.of_cons_of_ne hne)).trans (not_lt.mp hle)
  | case4 xs ys hcons =>
    cases xs with
    | nil => rw [List.sublist_nil.mp hx]; exact Nat.zero_le _
    | cons x xs =>
      cases ys with
      | nil => rw [List.sublist_nil.mp hy]; exact Nat.zero_le _
      | cons y ys => exact absurd rfl fun h => hcons x xs y ys rfl h

theorem longest_isGreatest (xs ys : List α) :
    IsGreatest (lengths xs ys) (longest xs ys).length := by
  constructor
  · exact ⟨longest xs ys, (longest_sublist xs ys).1, (longest_sublist xs ys).2, rfl⟩
  · rintro _ ⟨s, hx, hy, rfl⟩
    exact length_le_longest hx hy

end InterviewQuestions.Library.CommonSubsequence

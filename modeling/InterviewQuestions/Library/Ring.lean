import Mathlib.Data.List.Basic
import Mathlib.Data.Nat.ModEq
import Mathlib.Logic.Function.Basic

/-! Queues that go round in an array. -/
namespace InterviewQuestions.Library.Ring

variable {α : Type*} {capacity front : ℕ} {cells : ℕ → α} {x : α} {xs : List α}

/-- From `front` on, the array has these elements. -/
def Holds (capacity : ℕ) (cells : ℕ → α) (front : ℕ) (xs : List α) : Prop :=
  ∀ i (h : i < xs.length), cells ((front + i) % capacity) = xs.get ⟨i, h⟩

theorem holds_nil : Holds capacity cells front [] := fun _ h => absurd h (Nat.not_lt_zero _)

theorem Holds.push (h : Holds capacity cells front xs) (hroom : xs.length < capacity) (x : α) :
    Holds capacity (Function.update cells ((front + xs.length) % capacity) x) front
      (xs ++ [x]) := by
  intro i hi
  by_cases hlast : i = xs.length
  · subst hlast
    simp
  · have hlt : i < xs.length := by
      rw [List.length_append, List.length_singleton] at hi
      omega
    have hne : (front + i) % capacity ≠ (front + xs.length) % capacity := by
      intro heq
      have hmod : i ≡ xs.length [MOD capacity] := Nat.ModEq.add_left_cancel' front heq
      rw [Nat.ModEq, Nat.mod_eq_of_lt (hlt.trans hroom), Nat.mod_eq_of_lt hroom] at hmod
      exact hlast hmod
    rw [Function.update_of_ne hne, h i hlt]
    simp [List.getElem_append_left hlt]

theorem Holds.head (h : Holds capacity cells front (x :: xs)) (hfront : front < capacity) :
    cells front = x := by
  have hzero := h 0 (by simp)
  rwa [Nat.add_zero, Nat.mod_eq_of_lt hfront] at hzero

theorem Holds.pop (h : Holds capacity cells front (x :: xs)) :
    Holds capacity cells ((front + 1) % capacity) xs := by
  intro i hi
  rw [Nat.mod_add_mod, Nat.add_assoc, Nat.add_comm 1 i]
  exact h (i + 1) (Nat.succ_lt_succ hi)

end InterviewQuestions.Library.Ring

import Mathlib

/-! Threads in a ring with one token. Each goes round a loop of `len` statements: the first takes
the token that its predecessor has left, the last leaves it to the successor. -/
namespace InterviewQuestions.Library.TokenRing

variable {size : ℕ} [NeZero size] {len m : ℕ} {i : Fin size} {place tokens : Fin size → ℕ}

/-- The thread that executes statement `m` of all that are executed. -/
def turn (size len m : ℕ) [NeZero size] : Fin size := Fin.ofNat size (m / len)

/-- The ring after `m` statements. -/
structure After (len m : ℕ) (place tokens : Fin size → ℕ) : Prop where
  place : ∀ i, place i = if i = turn size len m then m % len else 0
  tokens : ∀ i, tokens i = if i = turn size len m ∧ m % len = 0 then 1 else 0

theorem after_zero {start : Fin size → ℕ} (hstart : ∀ i, start i = if i = 0 then 1 else 0) :
    After len 0 (fun _ : Fin size => 0) start where
  place i := by simp
  tokens i := by simp [hstart, turn]

theorem div_mod_succ (h : m % len + 1 < len) :
    (m + 1) / len = m / len ∧ (m + 1) % len = m % len + 1 := by
  refine (Nat.div_mod_unique (by omega)).mpr ⟨?_, h⟩
  have hsplit := Nat.mod_add_div m len
  omega

theorem div_mod_succ_last (h : m % len + 1 = len) :
    (m + 1) / len = m / len + 1 ∧ (m + 1) % len = 0 := by
  refine (Nat.div_mod_unique (by omega)).mpr ⟨?_, by omega⟩
  have hsplit := Nat.mod_add_div m len
  rw [Nat.mul_add, Nat.mul_one]
  omega

theorem turn_succ (h : m % len + 1 < len) : turn size len (m + 1) = turn size len m := by
  rw [turn, (div_mod_succ h).1, turn]

theorem turn_succ_last (h : m % len + 1 = len) : turn size len (m + 1) = turn size len m + 1 := by
  rw [turn, (div_mod_succ_last h).1, turn]
  apply Fin.ext
  simp [Fin.ofNat, Fin.val_add]

/-- The thread whose turn it is can go on, and no other. -/
theorem After.ready_iff (h : After len m place tokens) :
    place i ≠ 0 ∨ 0 < tokens i ↔ i = turn size len m := by
  rw [h.place, h.tokens]
  by_cases hi : i = turn size len m
  · by_cases hm : m % len = 0
    · simp [hi, hm]
    · simp [hi, hm]
  · simp [hi]

theorem After.place_turn (h : After len m place tokens) (hi : i = turn size len m) :
    place i = m % len := by
  rw [h.place, if_pos hi]

/-- The thread takes its token. -/
theorem After.take (h : After len m place tokens) (hlen : 1 < len) (hi : i = turn size len m)
    (hplace : place i = 0) :
    After len (m + 1) (Function.update place i 1) (Function.update tokens i (tokens i - 1)) := by
  have hm : m % len = 0 := by rw [← h.place_turn hi, hplace]
  have hinside : m % len + 1 < len := by omega
  have hmod : (m + 1) % len = 1 := by rw [(div_mod_succ hinside).2, hm]
  have htoken : tokens i = 1 := by rw [h.tokens, if_pos ⟨hi, hm⟩]
  constructor
  · intro j
    rw [turn_succ hinside, ← hi, hmod]
    by_cases hj : j = i
    · simp [hj]
    · rw [Function.update_of_ne hj, h.place, ← hi, if_neg hj, if_neg hj]
  · intro j
    rw [hmod]
    by_cases hj : j = i
    · simp [hj, htoken]
    · simp [hj, h.tokens j, ← hi]

theorem After.go (h : After len m place tokens) (hi : i = turn size len m)
    (hplace : place i ≠ 0) (hlast : place i + 1 < len) :
    After len (m + 1) (Function.update place i (place i + 1)) tokens := by
  have hm := h.place_turn hi
  rw [hm] at hlast hplace
  have hmod := (div_mod_succ hlast).2
  constructor
  · intro j
    rw [turn_succ hlast, ← hi, hmod]
    by_cases hj : j = i
    · simp [hj, hm]
    · rw [Function.update_of_ne hj, h.place, ← hi, if_neg hj, if_neg hj]
  · intro j
    rw [hmod, h.tokens j]
    simp [hplace]

/-- The thread leaves the token to the next one. -/
theorem After.leave (h : After len m place tokens) (hi : i = turn size len m)
    (hplace : place i ≠ 0) (hlast : place i + 1 = len) :
    After len (m + 1) (Function.update place i 0)
      (Function.update tokens (i + 1) (tokens (i + 1) + 1)) := by
  have hm := h.place_turn hi
  rw [hm] at hlast hplace
  have hmod := (div_mod_succ_last hlast).2
  constructor
  · intro j
    rw [hmod, ite_self]
    by_cases hj : j = i
    · simp [hj]
    · rw [Function.update_of_ne hj, h.place, ← hi, if_neg hj]
  · intro j
    rw [turn_succ_last hlast, ← hi, hmod]
    by_cases hj : j = i + 1
    · simp [hj, h.tokens (i + 1), hplace]
    · simp [hj, h.tokens j, hplace]

end InterviewQuestions.Library.TokenRing

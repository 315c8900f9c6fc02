import InterviewQuestions.Library.Arithmetic

/-! Binary search for the first index that is not below, with bounds of the type `int`. -/
namespace InterviewQuestions.Library.Bisection

open Arithmetic

variable {below : ℕ → Option Bool} {size count fuel : ℕ} {l r : ℤ}

/-- There is no result where a value is not an `int`, or where there is nothing at `m`. -/
def search (below : ℕ → Option Bool) : ℕ → ℤ → ℤ → Option ℤ
  | 0, _, _ => none
  | fuel + 1, l, r => do
      let next ← int (l + 1)
      if next ≠ r then
        let width ← int (r - l)
        let m ← int (l + width.tdiv 2)
        let b ← if 0 ≤ m then below m.toNat else none
        if b then search below fuel m r else search below fuel l m
      else return r

/-- The search among `size` many, whose number becomes an `int`. -/
def upperBound (size : ℕ) (below : ℕ → Option Bool) : Option ℕ :=
  (search below (size + 2) (-1) ((size : ℤ).bmod (2 ^ 32))).map Int.toNat

theorem search_spec (hbelow : ∀ m < size, below m = some (decide (m < count)))
    (hsize : size + 1 < 2 ^ 31) (hl : -1 ≤ l) (hlc : l < count) (hcr : count ≤ r) (hr : r ≤ size)
    (hfuel : r - l ≤ fuel) : search below fuel l r = some count := by
  induction fuel generalizing l r with
  | zero => omega
  | succ fuel ih =>
    have hint {z : ℤ} (hlow : -1 ≤ z) (hhigh : z < 2 ^ 31) : int z = some z :=
      int_eq_some.mpr ⟨rfl, by omega, hhigh⟩
    rw [search, hint (by omega) (by omega)]
    simp only [Option.bind_eq_bind, Option.bind_some]
    by_cases hend : l + 1 = r
    · obtain rfl : r = count := by omega
      rw [if_neg (not_not_intro hend)]
    · have hdiv : (r - l).tdiv 2 = (r - l) / 2 := Int.tdiv_eq_ediv_of_nonneg (by omega)
      obtain ⟨m, hm⟩ : ∃ m : ℕ, l + (r - l) / 2 = m := Int.eq_ofNat_of_zero_le (by omega)
      rw [if_pos hend, hint (by omega) (by omega), Option.bind_some, hdiv, hm,
        hint (by omega) (by omega), Option.bind_some, if_pos (Int.natCast_nonneg m),
        Int.toNat_natCast, hbelow m (by omega), Option.bind_some]
      by_cases hmc : m < count
      · rw [decide_eq_true hmc, if_pos rfl]
        exact ih (by omega) (by omega) hcr hr (by omega)
      · rw [decide_eq_false hmc, if_neg Bool.false_ne_true]
        exact ih hl hlc (by omega) (by omega) (by omega)

theorem bmod_of_lt (hsize : size < 2 ^ 31) : (size : ℤ).bmod (2 ^ 32) = size := by
  rcases bmod_cases size with ⟨-, h⟩ | ⟨hge, -⟩
  · rw [h, Nat.mod_eq_of_lt (by omega)]
  · rw [Nat.mod_eq_of_lt (by omega)] at hge
    omega

theorem upperBound_eq_some (hbelow : ∀ m < size, below m = some (decide (m < count)))
    (hcount : count ≤ size) (hsize : size + 1 < 2 ^ 31) : upperBound size below = some count := by
  rw [upperBound, bmod_of_lt (by omega),
    search_spec hbelow hsize (le_refl _) (by omega) (by omega) (le_refl _) (by omega)]
  rfl

/-- The width of the whole range is not an `int` any more. -/
theorem upperBound_eq_none (below : ℕ → Option Bool) (hsize : size + 1 = 2 ^ 31) :
    upperBound size below = none := by
  have hnext : int (-1 + 1) = some 0 := rfl
  have hwidth : int (size - -1) = none := by
    rw [int, if_neg]
    omega
  rw [upperBound, bmod_of_lt (by omega), search, hnext]
  simp only [Option.bind_eq_bind, Option.bind_some]
  rw [if_pos (by omega), hwidth]
  rfl

/-- A size that is negative as an `int`: the first `m` is below zero. -/
theorem upperBound_eq_none_of_neg (below : ℕ → Option Bool) (hlow : 2 ^ 31 ≤ size)
    (hhigh : size < 2 ^ 32) : upperBound size below = none := by
  have hr : (size : ℤ).bmod (2 ^ 32) = size - 2 ^ 32 := by
    rcases bmod_cases size with ⟨hlt, -⟩ | ⟨-, h⟩
    · rw [Nat.mod_eq_of_lt hhigh] at hlt
      omega
    · rw [h, Nat.mod_eq_of_lt hhigh]
  have hnext : int (-1 + 1) = some 0 := rfl
  have hwidth : int ((size : ℤ) - 2 ^ 32 - -1) = some ((size : ℤ) - 2 ^ 32 - -1) :=
    int_eq_some.mpr ⟨rfl, by omega, by omega⟩
  have hhalf : ((size : ℤ) - 2 ^ 32 - -1).tdiv 2 ≤ 0 ∧
      -2 ^ 30 ≤ ((size : ℤ) - 2 ^ 32 - -1).tdiv 2 := by
    rw [← Int.neg_neg ((size : ℤ) - 2 ^ 32 - -1), Int.neg_tdiv,
      Int.tdiv_eq_ediv_of_nonneg (by omega)]
    omega
  have hm : int (-1 + ((size : ℤ) - 2 ^ 32 - -1).tdiv 2) =
      some (-1 + ((size : ℤ) - 2 ^ 32 - -1).tdiv 2) := int_eq_some.mpr ⟨rfl, by omega, by omega⟩
  rw [upperBound, hr, search, hnext]
  simp only [Option.bind_eq_bind, Option.bind_some]
  rw [if_pos (by omega), hwidth, Option.bind_some, hm, Option.bind_some, if_neg (by omega)]
  rfl

/-- A size that is zero as an `int`. -/
theorem upperBound_two_pow (below : ℕ → Option Bool) : upperBound (2 ^ 32) below = some 0 :=
  rfl

end InterviewQuestions.Library.Bisection

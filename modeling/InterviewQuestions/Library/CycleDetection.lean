import Mathlib.Data.Nat.Find
import Mathlib.Data.Nat.ModEq
import Mathlib.Logic.Function.Iterate
import Mathlib.Tactic.Common

/-! Where two runners meet that follow the same path into a cycle, one of them twice as fast. -/
namespace InterviewQuestions.Library.CycleDetection

variable {α : Type*} {f : α → α} {x : α} {tail period i j n : ℕ}

/-- The path from `x` leads to a cycle. -/
structure Lasso (f : α → α) (x : α) (tail period : ℕ) : Prop where
  pos : 0 < period
  closes : f^[tail + period] x = f^[tail] x
  distinct : ∀ i < tail + period, ∀ j < tail + period, f^[i] x = f^[j] x → i = j

/-- The place on the path before the cycle is closed. -/
def place (tail period n : ℕ) : ℕ := if n < tail then n else tail + (n - tail) % period

theorem place_lt (hpos : 0 < period) (n : ℕ) : place tail period n < tail + period := by
  have hlt := Nat.mod_lt (n - tail) hpos
  unfold place
  split <;> omega

/-- Going round the cycle leads back. -/
theorem Lasso.round (h : Lasso f x tail period) (hn : tail ≤ n) (k : ℕ) :
    f^[n + period * k] x = f^[n] x := by
  induction k with
  | zero => rfl
  | succ k ih =>
    obtain ⟨d, rfl⟩ := Nat.exists_eq_add_of_le' hn
    have hsplit : d + tail + period * (k + 1) = d + period * k + (tail + period) := by
      rw [Nat.mul_succ]
      omega
    have hback : d + period * k + tail = d + tail + period * k := by omega
    rw [hsplit, Function.iterate_add_apply, h.closes, ← Function.iterate_add_apply, hback, ih]

theorem Lasso.eq_place (h : Lasso f x tail period) (n : ℕ) :
    f^[n] x = f^[place tail period n] x := by
  unfold place
  split
  · rfl
  · have hdiv := Nat.mod_add_div (n - tail) period
    rw [← h.round (Nat.le_add_right _ _) ((n - tail) / period)]
    congr 2
    omega

theorem Lasso.eq_iff (h : Lasso f x tail period) (i j : ℕ) :
    f^[i] x = f^[j] x ↔ place tail period i = place tail period j := by
  rw [h.eq_place i, h.eq_place j]
  constructor
  · exact h.distinct _ (place_lt h.pos i) _ (place_lt h.pos j)
  · exact fun heq => congrArg (fun n => f^[n] x) heq

/-- The runners can only meet on the cycle, after as many steps as lead round it. -/
theorem Lasso.eq_double_iff (h : Lasso f x tail period) (hi : 0 < i) :
    f^[i] x = f^[i + i] x ↔ tail ≤ i ∧ period ∣ i := by
  rw [h.eq_iff]
  have hlt := Nat.mod_lt (i - tail) h.pos
  unfold place
  constructor
  · intro heq
    have hle : tail ≤ i := by
      by_contra hlt'
      rw [if_pos (not_le.mp hlt')] at heq
      split at heq <;> omega
    rw [if_neg (by omega), if_neg (by omega)] at heq
    refine ⟨hle, ?_⟩
    have hmod : i - tail ≡ i - tail + i [MOD period] := by
      have hsplit : i + i - tail = i - tail + i := by omega
      rw [hsplit] at heq
      exact Nat.add_left_cancel heq
    have hzero : i - tail + 0 ≡ i - tail + i [MOD period] := hmod
    exact (Nat.modEq_zero_iff_dvd).mp (Nat.ModEq.add_left_cancel' _ hzero).symm
  · rintro ⟨hle, k, rfl⟩
    rw [if_neg (by omega), if_neg (by omega), Nat.add_sub_assoc hle, Nat.mul_add_mod]

/-- The runners meet, for the first time within one round. -/
theorem Lasso.exists_meeting (h : Lasso f x tail period) :
    ∃ i, 0 < i ∧ i ≤ tail + period ∧ tail ≤ i ∧ period ∣ i ∧ f^[i] x = f^[i + i] x ∧
      ∀ j, 0 < j → j < i → f^[j] x ≠ f^[j + j] x := by
  have hround : tail < period * (tail / period + 1) := Nat.lt_mul_div_succ tail h.pos
  have hex : ∃ i, 0 < i ∧ f^[i] x = f^[i + i] x := by
    refine ⟨period * (tail / period + 1), by omega, ?_⟩
    exact (h.eq_double_iff (by omega)).mpr ⟨hround.le, Nat.dvd_mul_right _ _⟩
  classical
  have hspec := Nat.find_spec hex
  obtain ⟨hle, hdvd⟩ := (h.eq_double_iff hspec.1).mp hspec.2
  refine ⟨Nat.find hex, hspec.1, ?_, hle, hdvd, hspec.2, fun j hj hlt heq => ?_⟩
  · have hfirst : Nat.find hex ≤ period * (tail / period + 1) := by
      refine Nat.find_min' hex ⟨by omega, ?_⟩
      exact (h.eq_double_iff (by omega)).mpr ⟨hround.le, Nat.dvd_mul_right _ _⟩
    have hdiv := Nat.mul_div_le tail period
    rw [Nat.mul_succ] at hfirst
    omega
  · exact Nat.find_min hex hlt ⟨hj, heq⟩

/-- From where they have met and from the start, at the same speed, they meet where the cycle
begins. -/
theorem Lasso.meets_at_tail (h : Lasso f x tail period) (hle : tail ≤ i) (hdvd : period ∣ i) :
    f^[tail] x = f^[i + tail] x ∧ ∀ j < tail, f^[j] x ≠ f^[i + j] x := by
  constructor
  · obtain ⟨k, rfl⟩ := hdvd
    rw [Nat.add_comm, h.round le_rfl]
  · intro j hj heq
    rw [h.eq_iff, place, place, if_pos hj, if_neg (by omega)] at heq
    omega

end InterviewQuestions.Library.CycleDetection

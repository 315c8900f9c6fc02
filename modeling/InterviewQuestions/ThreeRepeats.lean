import Mathlib.Algebra.BigOperators.Group.Finset.Basic
import Mathlib.Algebra.BigOperators.Ring.Finset
import Mathlib.Data.BitVec

/-! `bit_manipulation/three_repeats/solution.c`. The numbers are seen through their bits; there is
no result where an assertion fails. -/
namespace InterviewQuestions.ThreeRepeats

/-- A round of the loop, to `ones` and `twos`. -/
def step (s : BitVec 32 × BitVec 32) (x : BitVec 32) : Option (BitVec 32 × BitVec 32) :=
  let (ones, twos) := s
  let mask := x &&& ~~~twos
  let ones := ones ^^^ mask
  let twos := twos ^^^ (x &&& ~~~mask)
  let mask := (mask &&& ones) ^^^ mask
  let twos := twos ^^^ mask
  if ones &&& twos = 0 then some (ones, twos) else none

def findNumber (arr : List (BitVec 32)) : Option (BitVec 32) := do
  let (ones, twos) ← arr.foldlM step (0, 0)
  if ones = 0 ∨ twos = 0 then return if twos = 0 then ones else twos else none

variable {arr : List (BitVec 32)} {v x : BitVec 32} {s : BitVec 32 × BitVec 32} {j n : ℕ}

/-! ## The counters -/

/-- What a round does with one bit of `ones`, of `twos` and of the element. -/
def bitStep (s : Bool × Bool) (x : Bool) : Bool × Bool :=
  let (ones, twos) := s
  let mask := x && !twos
  let ones := ones ^^ mask
  let twos := twos ^^ (x && !mask)
  let mask := (mask && ones) ^^ mask
  (ones, twos ^^ mask)

/-- A number modulo 3: once in the first bit, twice in the second. -/
def encode (n : ℕ) : Bool × Bool := (n % 3 = 1, n % 3 = 2)

theorem bitStep_encode (n : ℕ) (x : Bool) : bitStep (encode n) x = encode (n + x.toNat) := by
  have hcases : n % 3 = 0 ∨ n % 3 = 1 ∨ n % 3 = 2 := by omega
  unfold encode
  rw [Nat.add_mod]
  rcases hcases with h | h | h <;> rw [h] <;> cases x <;> rfl

theorem encode_and (n : ℕ) : (decide (n % 3 = 1) && decide (n % 3 = 2)) = false := by
  by_cases h : n % 3 = 1
  · simp [h]
  · simp [h]

/-- The bits of `ones` and `twos` are what was counted, modulo 3. -/
def Counts (count : ℕ → ℕ) (s : BitVec 32 × BitVec 32) : Prop :=
  ∀ j < 32, (s.1.getLsbD j, s.2.getLsbD j) = encode (count j)

theorem eq_zero_of_counts {count : ℕ → ℕ} (hs : Counts count s) : s.1 &&& s.2 = 0 := by
  refine BitVec.eq_of_getLsbD_eq fun j hj => ?_
  have hbits := Prod.mk.inj (hs j hj)
  rw [BitVec.getLsbD_and, hbits.1, hbits.2, encode_and, BitVec.ofNat_eq_ofNat,
    BitVec.getLsbD_zero]

theorem step_spec {count : ℕ → ℕ} (hs : Counts count s) (x : BitVec 32) :
    ∃ s', step s x = some s' ∧ Counts (fun j => count j + (x.getLsbD j).toNat) s' := by
  obtain ⟨ones, twos⟩ := s
  let mask := x &&& ~~~twos
  let ones' := ones ^^^ mask
  let twos' := twos ^^^ (x &&& ~~~mask) ^^^ ((mask &&& ones') ^^^ mask)
  have hcounts : Counts (fun j => count j + (x.getLsbD j).toNat) (ones', twos') := by
    intro j hj
    have hbit : (ones'.getLsbD j, twos'.getLsbD j) =
        bitStep (ones.getLsbD j, twos.getLsbD j) (x.getLsbD j) := by
      simp [ones', twos', mask, bitStep, hj]
    rw [hbit, hs j hj, bitStep_encode]
  exact ⟨(ones', twos'), if_pos (eq_zero_of_counts hcounts), hcounts⟩

theorem foldlM_step {count : ℕ → ℕ} (hs : Counts count s) (arr : List (BitVec 32)) :
    ∃ s', arr.foldlM step s = some s' ∧
      Counts (fun j => count j + arr.countP (·.getLsbD j)) s' := by
  induction arr generalizing count s with
  | nil => exact ⟨s, rfl, hs⟩
  | cons x arr ih =>
    obtain ⟨s', hstep, hs'⟩ := step_spec hs x
    obtain ⟨s'', hrest, hs''⟩ := ih hs'
    refine ⟨s'', ?_, fun j hj => ?_⟩
    · rw [List.foldlM_cons, hstep]
      exact hrest
    · rw [hs'' j hj]
      have hbit : (x.getLsbD j).toNat = if x.getLsbD j = true then 1 else 0 := by
        cases x.getLsbD j <;> rfl
      dsimp only
      rw [List.countP_cons, Nat.add_assoc, Nat.add_comm (x.getLsbD j).toNat, hbit]

/-! ## The element that is left -/

/-- Where each element occurs a multiple of `m` times, so do those with a property. -/
theorem dvd_countP {m : ℕ} (p : BitVec 32 → Bool) (h : ∀ x ∈ arr, m ∣ arr.count x) :
    m ∣ arr.countP p := by
  rw [List.countP_eq_length_filter, ← List.sum_toFinset_count_eq_length]
  refine Finset.dvd_sum fun x hx => ?_
  obtain ⟨hmem, hp⟩ := List.mem_filter.mp (List.mem_toFinset.mp hx)
  rw [List.count_filter hp]
  exact h x hmem

/-- All elements but one come in groups of three. -/
theorem countP_mod (p : BitVec 32 → Bool) (hothers : ∀ x ∈ arr, x ≠ v → arr.count x = 3) :
    arr.countP p % 3 = (if p v then arr.count v else 0) % 3 := by
  have hsplit := List.countP_eq_countP_filter_add arr p (· == v)
  have hdvd : 3 ∣ (arr.filter fun x => ! x == v).countP p := by
    refine dvd_countP p fun x hx => ?_
    obtain ⟨hmem, hne⟩ := List.mem_filter.mp hx
    rw [List.count_filter (p := fun a => ! a == v) hne, hothers x hmem (by simpa using hne)]
  rw [hsplit, List.filter_beq, List.countP_replicate]
  omega

/-- A word that has the bits of `v`, or none. -/
theorem eq_ite_of_bits {w : BitVec 32} {k r : ℕ} (hr : 0 ≠ r)
    (hbits : ∀ j < 32, w.getLsbD j = decide ((if v.getLsbD j then k else 0) % 3 = r)) :
    w = if k % 3 = r then v else 0 := by
  refine BitVec.eq_of_getLsbD_eq fun j hj => ?_
  rw [hbits j hj]
  cases hbit : v.getLsbD j with
  | true =>
    rw [if_pos rfl]
    split
    case isTrue hk => rw [decide_eq_true hk, hbit]
    case isFalse hk => rw [decide_eq_false hk, BitVec.ofNat_eq_ofNat, BitVec.getLsbD_zero]
  | false =>
    rw [if_neg Bool.false_ne_true, Nat.zero_mod, decide_eq_false hr]
    split
    · rw [hbit]
    · rw [BitVec.ofNat_eq_ofNat, BitVec.getLsbD_zero]

/-- The element that is left is in `ones` or in `twos`. -/
theorem counts_left (hs : Counts (fun j => 0 + arr.countP (·.getLsbD j)) s)
    (hothers : ∀ x ∈ arr, x ≠ v → arr.count x = 3) :
    s.1 = (if arr.count v % 3 = 1 then v else 0) ∧
      s.2 = if arr.count v % 3 = 2 then v else 0 := by
  have hbit (j : ℕ) (hj : j < 32) : (s.1.getLsbD j, s.2.getLsbD j) =
      encode (if v.getLsbD j then arr.count v else 0) := by
    have hcount := countP_mod (·.getLsbD j) hothers
    rw [hs j hj]
    dsimp only
    rw [Nat.zero_add, encode, encode, hcount]
  exact ⟨eq_ite_of_bits Nat.zero_ne_one fun j hj => congrArg Prod.fst (hbit j hj),
    eq_ite_of_bits (by decide) fun j hj => congrArg Prod.snd (hbit j hj)⟩

/-- The element that occurs once or twice is found. -/
theorem findNumber_eq (hv : arr.count v = 1 ∨ arr.count v = 2)
    (hothers : ∀ x ∈ arr, x ≠ v → arr.count x = 3) : findNumber arr = some v := by
  have hstart : Counts (fun _ => 0) (0, 0) := fun j hj => by
    simp [encode]
  obtain ⟨s, hfold, hs⟩ := foldlM_step hstart arr
  obtain ⟨hone, htwo⟩ := counts_left hs hothers
  obtain ⟨ones, twos⟩ := s
  dsimp only at hone htwo
  rw [findNumber, hfold, hone, htwo]
  rcases hv with hv | hv
  · rw [hv]
    simp
  · rw [hv]
    simp only [Option.bind_eq_bind, Option.bind_some, if_true]
    by_cases hzero : v = 0
    · rw [if_pos hzero, hzero]
      rfl
    · rw [if_neg hzero]
      rfl

theorem findNumber_eq_seven : findNumber [7, 2, 7, 2, 2] = some 7 := by
  refine findNumber_eq (.inr (by simp)) fun x hx hne => ?_
  obtain rfl : x = 2 := by
    simp at hx hne
    tauto
  simp

end InterviewQuestions.ThreeRepeats

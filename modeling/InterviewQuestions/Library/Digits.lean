import Mathlib.Data.Nat.Digits.Defs
import Mathlib.Data.Nat.Digits.Lemmas
import Mathlib.Tactic.Ring

/-! Addition of numbers by their digits, from the least significant one on. -/
namespace InterviewQuestions.Library.CarryChain

variable {b c x y k : ℕ} {xs ys sums rest : List ℕ}

/-- The two digits of each place together. -/
def columns : List ℕ → List ℕ → List ℕ
  | [], ys => ys
  | x :: xs, [] => x :: xs
  | x :: xs, y :: ys => (x + y) :: columns xs ys

def digits (b : ℕ) : ℕ → List ℕ → List ℕ
  | _, [] => []
  | c, s :: sums => (s + c) % b :: digits b ((s + c) / b) sums

/-- What is left after the last digit. -/
def carry (b : ℕ) : ℕ → List ℕ → ℕ
  | c, [] => c
  | c, s :: sums => carry b ((s + c) / b) sums

/-- What is left becomes one more digit. -/
def sum (b : ℕ) (sums : List ℕ) : List ℕ :=
  digits b 0 sums ++ if carry b 0 sums = 0 then [] else [carry b 0 sums]

/-! ## The columns -/

theorem columns_nil (xs : List ℕ) : columns xs [] = xs := by
  cases xs with
  | nil => rfl
  | cons x xs => rfl

theorem ofDigits_columns (b : ℕ) (xs ys : List ℕ) :
    Nat.ofDigits b (columns xs ys) = Nat.ofDigits b xs + Nat.ofDigits b ys := by
  fun_induction columns xs ys with
  | case1 ys => rw [Nat.ofDigits_nil, Nat.zero_add]
  | case2 x xs => rw [Nat.ofDigits_nil, Nat.add_zero]
  | case3 x xs y ys ih =>
    rw [Nat.ofDigits_cons, Nat.ofDigits_cons, Nat.ofDigits_cons, ih, Nat.mul_add]
    omega

theorem length_columns (xs ys : List ℕ) : (columns xs ys).length = max xs.length ys.length := by
  fun_induction columns xs ys with
  | case1 ys => exact (Nat.zero_max _).symm
  | case2 x xs => exact (Nat.max_zero _).symm
  | case3 x xs y ys ih =>
    rw [List.length_cons, List.length_cons, List.length_cons, ih]
    omega

theorem lt_of_mem_columns (hxs : ∀ x ∈ xs, x < b) (hys : ∀ y ∈ ys, y < b) :
    ∀ s ∈ columns xs ys, s + 1 < 2 * b := by
  fun_induction columns xs ys with
  | case1 ys =>
    intro s hs
    have hlt := hys s hs
    omega
  | case2 x xs =>
    intro s hs
    have hlt := hxs s hs
    omega
  | case3 x xs y ys ih =>
    rw [List.forall_mem_cons] at hxs hys
    intro s hs
    rcases List.mem_cons.mp hs with rfl | hs
    · omega
    · exact ih hxs.2 hys.2 s hs

/-- The most significant digits of two numbers of the same length. -/
theorem columns_append (h : xs.length = ys.length) (x y : ℕ) :
    columns (xs ++ [x]) (ys ++ [y]) = columns xs ys ++ [x + y] := by
  induction xs generalizing ys with
  | nil =>
    rw [List.eq_nil_of_length_eq_zero h.symm]
    rfl
  | cons z xs ih =>
    cases ys with
    | nil => cases h
    | cons w ys =>
      rw [List.cons_append, List.cons_append, columns, ih (Nat.succ.inj h), columns,
        List.cons_append]

/-- Zeros in front of the shorter number change nothing. -/
theorem columns_zeros_left (h : xs.length + k ≤ ys.length) :
    columns (xs ++ List.replicate k 0) ys = columns xs ys := by
  induction ys generalizing xs k with
  | nil =>
    obtain ⟨hxs, hk⟩ := Nat.add_eq_zero_iff.mp (Nat.le_zero.mp h)
    rw [List.eq_nil_of_length_eq_zero hxs, hk]
    rfl
  | cons y ys ih =>
    cases xs with
    | nil =>
      cases k with
      | zero => rfl
      | succ k =>
        have hzeros : columns ([] ++ List.replicate k 0) ys = columns [] ys :=
          ih (by simpa using h)
        rw [List.nil_append, columns] at hzeros
        calc columns (List.replicate (k + 1) 0) (y :: ys)
          _ = (0 + y) :: columns (List.replicate k 0) ys := rfl
          _ = y :: ys := by rw [hzeros, Nat.zero_add]
    | cons x xs =>
      rw [List.length_cons, List.length_cons] at h
      rw [List.cons_append, columns, ih (by omega), columns]

theorem columns_comm (xs ys : List ℕ) : columns xs ys = columns ys xs := by
  fun_induction columns xs ys with
  | case1 ys => rw [columns_nil]
  | case2 x xs => rfl
  | case3 x xs y ys ih => rw [columns, ih, Nat.add_comm]

theorem columns_zeros_right (h : ys.length + k ≤ xs.length) :
    columns xs (ys ++ List.replicate k 0) = columns xs ys := by
  rw [columns_comm, columns_zeros_left h, columns_comm]

/-! ## The digits -/

theorem digits_append (b c : ℕ) (sums rest : List ℕ) :
    digits b c (sums ++ rest) = digits b c sums ++ digits b (carry b c sums) rest := by
  induction sums generalizing c with
  | nil => rfl
  | cons s sums ih => rw [List.cons_append, digits, ih, digits, carry, List.cons_append]

theorem carry_append (b c : ℕ) (sums rest : List ℕ) :
    carry b c (sums ++ rest) = carry b (carry b c sums) rest := by
  induction sums generalizing c with
  | nil => rfl
  | cons s sums ih => rw [List.cons_append, carry, ih, carry]

theorem length_digits (b c : ℕ) (sums : List ℕ) : (digits b c sums).length = sums.length := by
  induction sums generalizing c with
  | nil => rfl
  | cons s sums ih => rw [digits, List.length_cons, List.length_cons, ih]

theorem digits_lt (hb : 0 < b) (c : ℕ) (sums : List ℕ) : ∀ d ∈ digits b c sums, d < b := by
  induction sums generalizing c with
  | nil => simp [digits]
  | cons s sums ih =>
    rw [digits]
    exact List.forall_mem_cons.mpr ⟨Nat.mod_lt _ hb, ih _⟩

/-- One is all that is ever carried. -/
theorem carry_le_one (hsums : ∀ s ∈ sums, s + 1 < 2 * b) (hc : c ≤ 1) : carry b c sums ≤ 1 := by
  induction sums generalizing c with
  | nil => exact hc
  | cons s sums ih =>
    rw [List.forall_mem_cons] at hsums
    apply ih hsums.2
    have hlt : (s + c) / b < 2 := Nat.div_lt_of_lt_mul (by omega)
    omega

theorem ofDigits_digits (b c : ℕ) (sums : List ℕ) :
    Nat.ofDigits b (digits b c sums) + b ^ sums.length * carry b c sums =
      Nat.ofDigits b sums + c := by
  induction sums generalizing c with
  | nil => simp [digits, carry]
  | cons s sums ih =>
    have hrest := ih ((s + c) / b)
    have hdiv := Nat.mod_add_div (s + c) b
    calc Nat.ofDigits b (digits b c (s :: sums)) + b ^ (s :: sums).length * carry b c (s :: sums)
      _ = (s + c) % b + b * (Nat.ofDigits b (digits b ((s + c) / b) sums) +
            b ^ sums.length * carry b ((s + c) / b) sums) := by
        rw [digits, carry, Nat.ofDigits_cons, List.length_cons, Nat.pow_succ', Nat.mul_add,
          Nat.mul_assoc, Nat.add_assoc]
      _ = (s + c) % b + b * ((s + c) / b) + b * Nat.ofDigits b sums := by
        rw [hrest, Nat.mul_add]
        omega
      _ = Nat.ofDigits b (s :: sums) + c := by
        rw [hdiv, Nat.ofDigits_cons]
        omega

theorem ofDigits_sum (b : ℕ) (sums : List ℕ) :
    Nat.ofDigits b (sum b sums) = Nat.ofDigits b sums := by
  have hdigits := ofDigits_digits b 0 sums
  rw [sum, Nat.ofDigits_append, length_digits]
  split_ifs with hcarry
  · rw [hcarry] at hdigits
    simpa using hdigits
  · rw [Nat.ofDigits_singleton, hdigits, Nat.add_zero]

theorem sum_lt (hb : 1 < b) (hsums : ∀ s ∈ sums, s + 1 < 2 * b) : ∀ d ∈ sum b sums, d < b := by
  have hcarry := carry_le_one hsums (Nat.zero_le 1)
  intro d hd
  rcases List.mem_append.mp hd with hd | hd
  · exact digits_lt (by omega) 0 sums d hd
  · split_ifs at hd
    · cases hd
    · rw [List.mem_singleton.mp hd]
      omega

end InterviewQuestions.Library.CarryChain

/-! Subtraction of numbers by their digits, from the least significant one on. -/
namespace InterviewQuestions.Library.BorrowChain

variable {b c : ℕ} {xs ys : List ℕ}

/-- What a place borrows from the next one. -/
def next (c x y : ℕ) : ℕ := if x < y + c then 1 else 0

/-- The digits of the difference, as far as both numbers have digits. -/
def digits (b : ℕ) : ℕ → List ℕ → List ℕ → List ℕ
  | c, x :: xs, y :: ys => (b * next c x y + x - (y + c)) :: digits b (next c x y) xs ys
  | _, _, _ => []

/-- What is borrowed behind them. -/
def borrow : ℕ → List ℕ → List ℕ → ℕ
  | c, x :: xs, y :: ys => borrow (next c x y) xs ys
  | c, _, _ => c

theorem next_le_one (c x y : ℕ) : next c x y ≤ 1 := by
  unfold next
  split <;> omega

theorem borrow_le_one (hc : c ≤ 1) (xs ys : List ℕ) : borrow c xs ys ≤ 1 := by
  fun_induction borrow c xs ys with
  | case1 c x xs y ys ih => exact ih (next_le_one c x y)
  | case2 c xs ys => exact hc

theorem length_digits (b c : ℕ) (h : xs.length = ys.length) :
    (digits b c xs ys).length = xs.length := by
  induction xs generalizing c ys with
  | nil => rfl
  | cons x xs ih =>
    cases ys with
    | nil => cases h
    | cons y ys => rw [digits, List.length_cons, List.length_cons, ih _ (Nat.succ.inj h)]

theorem digits_lt (c : ℕ) (ys : List ℕ) (hxs : ∀ x ∈ xs, x < b) :
    ∀ d ∈ digits b c xs ys, d < b := by
  fun_induction digits b c xs ys with
  | case1 c x xs y ys ih =>
    rw [List.forall_mem_cons] at hxs ⊢
    refine ⟨?_, ih hxs.2⟩
    unfold next
    split <;> omega
  | case2 => exact fun d hd => absurd hd List.not_mem_nil

/-- Nothing is lost. -/
theorem ofDigits_digits (h : xs.length = ys.length) (hc : c ≤ 1) (hys : ∀ y ∈ ys, y < b) :
    Nat.ofDigits b (digits b c xs ys) + (Nat.ofDigits b ys + c) =
      Nat.ofDigits b xs + b ^ xs.length * borrow c xs ys := by
  induction xs generalizing c ys with
  | nil =>
    obtain rfl := List.eq_nil_of_length_eq_zero h.symm
    simp [digits, borrow]
  | cons x xs ih =>
    cases ys with
    | nil => cases h
    | cons y ys =>
      rw [List.forall_mem_cons] at hys
      have hrest := ih (Nat.succ.inj h) (next_le_one c x y) hys.2
      have hplace : b * next c x y + x - (y + c) + (y + c) = b * next c x y + x := by
        refine Nat.sub_add_cancel ?_
        unfold next
        split <;> omega
      rw [digits, borrow, Nat.ofDigits_cons, Nat.ofDigits_cons, Nat.ofDigits_cons, List.length_cons,
        pow_succ']
      calc b * next c x y + x - (y + c) + b * Nat.ofDigits b (digits b (next c x y) xs ys) +
            (y + b * Nat.ofDigits b ys + c)
          = b * next c x y + x - (y + c) + (y + c) +
              b * (Nat.ofDigits b (digits b (next c x y) xs ys) + Nat.ofDigits b ys) := by ring
        _ = x + b * (Nat.ofDigits b (digits b (next c x y) xs ys) +
              (Nat.ofDigits b ys + next c x y)) := by
            rw [hplace]
            ring
        _ = x + b * Nat.ofDigits b xs + b * b ^ xs.length * borrow (next c x y) xs ys := by
            rw [hrest]
            ring

/-- Something is borrowed where the digits of the subtrahend are more. -/
theorem borrow_eq_zero_iff (hb : 1 < b) (h : xs.length = ys.length) (hc : c ≤ 1)
    (hxs : ∀ x ∈ xs, x < b) (hys : ∀ y ∈ ys, y < b) :
    borrow c xs ys = 0 ↔ Nat.ofDigits b ys + c ≤ Nat.ofDigits b xs := by
  have hsum := ofDigits_digits h hc hys
  have hle := borrow_le_one hc xs ys
  have hlt := Nat.ofDigits_lt_base_pow_length hb (digits_lt c ys hxs)
  rw [length_digits b c h] at hlt
  rcases Nat.le_one_iff_eq_zero_or_eq_one.mp hle with hzero | hone
  · rw [hzero] at hsum
    omega
  · rw [hone] at hsum
    omega

end InterviewQuestions.Library.BorrowChain

/-! Numbers as bytes, the most significant one first. -/
namespace InterviewQuestions.Library.BigEndian

def word : List UInt8 → ℕ
  | [] => 0
  | b :: bs => b.toNat * 256 ^ bs.length + word bs

def bytes : ℕ → ℕ → List UInt8
  | 0, _ => []
  | k + 1, n => UInt8.ofNat (n / 256 ^ k) :: bytes k n

variable {bs : List UInt8} {k n : ℕ}

@[simp] theorem length_bytes (k n : ℕ) : (bytes k n).length = k := by
  induction k with
  | zero => rfl
  | succ k ih => rw [bytes, List.length_cons, ih]

theorem word_lt (bs : List UInt8) : word bs < 256 ^ bs.length := by
  induction bs with
  | nil => exact Nat.one_pos
  | cons b bs ih =>
    have hb := b.toNat_lt
    rw [word, List.length_cons, Nat.pow_succ]
    calc b.toNat * 256 ^ bs.length + word bs < b.toNat * 256 ^ bs.length + 256 ^ bs.length := by omega
      _ = (b.toNat + 1) * 256 ^ bs.length := by ring
      _ ≤ 256 * 256 ^ bs.length := Nat.mul_le_mul_right _ hb
      _ = 256 ^ bs.length * 256 := Nat.mul_comm _ _

theorem word_bytes (k n : ℕ) : word (bytes k n) = n % 256 ^ k := by
  induction k with
  | zero => rw [bytes, word, Nat.pow_zero, Nat.mod_one]
  | succ k ih =>
    have hsplit : n % 256 ^ (k + 1) = n % 256 ^ k + 256 ^ k * (n / 256 ^ k % 2 ^ 8) :=
      Nat.mod_pow_succ
    rw [bytes, word, ih, length_bytes, UInt8.toNat_ofNat', hsplit, Nat.mul_comm, Nat.add_comm]

theorem bytes_add_mul (k a r : ℕ) : bytes k (a * 256 ^ k + r) = bytes k r := by
  induction k generalizing a with
  | zero => rfl
  | succ k ih =>
    have hsplit : a * 256 ^ (k + 1) + r = 256 ^ k * (a * 256) + r := by ring
    have hsplit' : a * 256 ^ (k + 1) + r = (a * 256) * 256 ^ k + r := by ring
    rw [bytes, bytes]
    congr 1
    · apply UInt8.toNat_inj.mp
      rw [UInt8.toNat_ofNat', UInt8.toNat_ofNat', hsplit,
        Nat.mul_add_div (Nat.pow_pos (by decide)), Nat.mul_comm a, Nat.mul_add_mod]
    · rw [hsplit', ih]

theorem bytes_word (bs : List UInt8) : bytes bs.length (word bs) = bs := by
  induction bs with
  | nil => rfl
  | cons b bs ih =>
    rw [List.length_cons, bytes, word, bytes_add_mul, ih, Nat.mul_comm,
      Nat.mul_add_div (Nat.pow_pos (by decide)), Nat.div_eq_of_lt (word_lt bs), Nat.add_zero,
      UInt8.ofNat_toNat]

theorem word_append (bs : List UInt8) (b : UInt8) : word (bs ++ [b]) = word bs * 256 + b.toNat := by
  induction bs with
  | nil => simp [word]
  | cons c bs ih =>
    rw [List.cons_append, word, word, ih, List.length_append, List.length_singleton, Nat.pow_succ]
    ring

end InterviewQuestions.Library.BigEndian

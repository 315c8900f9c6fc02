import Mathlib.Algebra.Ring.Parity
import Mathlib.Data.List.GetD
import Mathlib.Data.Nat.BitIndices
import Mathlib.Data.Nat.Bitwise
import Mathlib.Data.Nat.Factorization.Basic
import Mathlib.Order.Bounds.Defs
import Mathlib.Tactic.Common

/-! Bytes as a row of bits, the bit of the highest value of each byte first, and what it is to set
some of the bits. -/
namespace InterviewQuestions.Library.Bitmap

/-- The bit number `p`. -/
def bit (bytes : List UInt8) (p : ℕ) : Bool :=
  (bytes.getD (p / 8) 0).toNat.testBit (7 - p % 8)

/-- The bits that are set are those that were, and those at `on`. -/
structure Sets (on : ℕ → Prop) (bytes bytes' : List UInt8) : Prop where
  length_eq : bytes'.length = bytes.length
  bit_iff : ∀ p < 8 * bytes.length, bit bytes' p = true ↔ bit bytes p = true ∨ on p

variable {on on' : ℕ → Prop} {bytes bytes' bytes'' : List UInt8} {i p : ℕ}

theorem Sets.refl (h : ∀ p, ¬ on p) (bytes : List UInt8) : Sets on bytes bytes where
  length_eq := rfl
  bit_iff := fun p _ => (or_iff_left (h p)).symm

theorem Sets.trans (h : Sets on bytes bytes') (h' : Sets on' bytes' bytes'') :
    Sets (fun p => on p ∨ on' p) bytes bytes'' where
  length_eq := h'.length_eq.trans h.length_eq
  bit_iff := fun p hp => by
    rw [h'.bit_iff p (h.length_eq ▸ hp), h.bit_iff p hp, or_assoc]

theorem Sets.congr (h : Sets on bytes bytes') (hon : ∀ p, on p ↔ on' p) :
    Sets on' bytes bytes' where
  length_eq := h.length_eq
  bit_iff := fun p hp => by rw [h.bit_iff p hp, hon]

/-- A byte is replaced by one with more bits. -/
theorem Sets.set {b : UInt8} (hi : i < bytes.length) {q : ℕ → Prop}
    (hb : ∀ k < 8, b.toNat.testBit k = true ↔ (bytes.getD i 0).toNat.testBit k = true ∨ q k) :
    Sets (fun p => p / 8 = i ∧ q (7 - p % 8)) bytes (bytes.set i b) where
  length_eq := List.length_set
  bit_iff := fun p hp => by
    unfold bit
    by_cases hpi : p / 8 = i
    · rw [hpi, List.getD_eq_getElem _ _ (by rwa [List.length_set]), List.getElem_set_self,
        hb _ (by omega), and_iff_right rfl]
    · have hget : (bytes.set i b).getD (p / 8) 0 = bytes.getD (p / 8) 0 := by
        rw [List.getD_eq_getElem?_getD, List.getD_eq_getElem?_getD,
          List.getElem?_set_ne (Ne.symm hpi)]
      rw [hget, or_iff_left fun h => hpi h.1]

/-- All bits of a byte. -/
theorem Sets.full (hi : i < bytes.length) :
    Sets (fun p => p / 8 = i) bytes (bytes.set i 255) := by
  refine (Sets.set hi (q := fun _ => True) fun k hk => ?_).congr fun p => and_iff_left trivial
  have htrue : (255 : UInt8).toNat.testBit k = true := by
    have hpow := Nat.testBit_two_pow_sub_one 8 k
    rw [decide_eq_true hk] at hpow
    exact hpow
  exact iff_of_true htrue (.inr trivial)

/-- A byte with one more bit. -/
def withBit (k : ℕ) (b : UInt8) : UInt8 := UInt8.ofNat (b.toNat ||| 1 <<< k)

theorem testBit_withBit {k : ℕ} (b : UInt8) {j : ℕ} (hj : j < 8) :
    (withBit k b).toNat.testBit j = true ↔ b.toNat.testBit j = true ∨ j = k := by
  have hmod : (withBit k b).toNat = (b.toNat ||| 1 <<< k) % 2 ^ 8 := rfl
  rw [hmod, Nat.testBit_mod_two_pow, decide_eq_true hj, Bool.true_and, Nat.testBit_or,
    Nat.one_shiftLeft, Nat.testBit_two_pow, Bool.or_eq_true, decide_eq_true_eq, eq_comm (a := k)]

theorem Sets.or (hi : i < bytes.length) (k : ℕ) :
    Sets (fun p => p / 8 = i ∧ 7 - p % 8 = k) bytes
      (bytes.set i (withBit k (bytes.getD i 0))) :=
  Sets.set hi fun _ hj => testBit_withBit _ hj

end InterviewQuestions.Library.Bitmap

/-! The ones among the bits of a number, and the next number with as many of them. -/
namespace InterviewQuestions.Library.OneBits

/-- How many of the bits are ones. -/
def ones (n : ℕ) : ℕ := n.bitIndices.length

variable {n m p r x k c d : ℕ}

theorem ones_zero : ones 0 = 0 := by
  rw [ones, Nat.bitIndices_zero, List.length_nil]

theorem ones_two_mul (n : ℕ) : ones (2 * n) = ones n := by
  rw [ones, Nat.bitIndices_two_mul, List.length_map, ones]

theorem ones_two_mul_add_one (n : ℕ) : ones (2 * n + 1) = ones n + 1 := by
  rw [ones, Nat.bitIndices_two_mul_add_one, List.length_cons, List.length_map, ones]

theorem ones_eq_half (n : ℕ) : ones n = ones (n / 2) + n % 2 := by
  rcases Nat.even_or_odd' n with ⟨q, rfl | rfl⟩
  · rw [ones_two_mul, Nat.mul_div_cancel_left q (by decide), Nat.mul_mod_right, Nat.add_zero]
  · have hhalf : (2 * q + 1) / 2 = q := by omega
    have hmod : (2 * q + 1) % 2 = 1 := by omega
    rw [ones_two_mul_add_one, hhalf, hmod]

/-- The bits from `k` on, and those below. -/
theorem ones_add (p : ℕ) (hr : r < 2 ^ k) : ones (2 ^ k * p + r) = ones p + ones r := by
  induction k generalizing r with
  | zero =>
    obtain rfl : r = 0 := Nat.lt_one_iff.mp hr
    rw [pow_zero, one_mul, add_zero, ones_zero, add_zero]
  | succ k ih =>
    rw [pow_succ] at hr
    have hhigh : 2 ^ (k + 1) * p = 2 * (2 ^ k * p) := by rw [pow_succ']; exact mul_assoc _ _ _
    have hhalf : (2 ^ (k + 1) * p + r) / 2 = 2 ^ k * p + r / 2 := by omega
    have hmod : (2 ^ (k + 1) * p + r) % 2 = r % 2 := by omega
    rw [ones_eq_half, hhalf, hmod, ih (by omega), ones_eq_half r, add_assoc]

/-- No number with as many ones is less than the one that has them all at the end. -/
theorem two_pow_ones_le (n : ℕ) : 2 ^ ones n ≤ n + 1 := by
  induction n using Nat.strong_induction_on with
  | _ n ih =>
    rcases Nat.eq_zero_or_pos n with rfl | hpos
    · rw [ones_zero]
      exact le_rfl
    · have hhalf := ih (n / 2) (by omega)
      rw [ones_eq_half]
      rcases Nat.mod_two_eq_zero_or_one n with hmod | hmod
      · rw [hmod, Nat.add_zero]
        omega
      · rw [hmod, pow_succ]
        omega

/-- The other bits below `k`. -/
theorem ones_compl (hr : r < 2 ^ k) : ones r + ones (2 ^ k - 1 - r) = k := by
  induction k generalizing r with
  | zero =>
    obtain rfl : r = 0 := Nat.lt_one_iff.mp hr
    exact congrArg₂ _ ones_zero ones_zero
  | succ k ih =>
    rw [pow_succ] at hr ⊢
    have hhalf : (2 ^ k * 2 - 1 - r) / 2 = 2 ^ k - 1 - r / 2 := by omega
    have hmod : r % 2 + (2 ^ k * 2 - 1 - r) % 2 = 1 := by omega
    have hrest := ih (r := r / 2) (by omega)
    rw [ones_eq_half, ones_eq_half (2 ^ k * 2 - 1 - r), hhalf]
    omega

theorem ones_two_pow_sub_one (c : ℕ) : ones (2 ^ c - 1) = c := by
  have hcompl := ones_compl (r := 0) (Nat.two_pow_pos c)
  rwa [ones_zero, Nat.zero_add, Nat.sub_zero] at hcompl

/-- No number below `2 ^ k` with as many ones is greater than the one that has them all in front. -/
theorem add_two_pow_le (hr : r < 2 ^ k) : r + 2 ^ (k - ones r) ≤ 2 ^ k := by
  have hcompl := ones_compl hr
  have hle := two_pow_ones_le (2 ^ k - 1 - r)
  have hones : k - ones r = ones (2 ^ k - 1 - r) := by omega
  rw [hones]
  omega

/-- A multiple of a power of two below another power of two leaves room for one more. -/
theorem two_pow_mul_add_le {w a : ℕ} (ha : a ≠ 0) (hlt : 2 ^ k * a < 2 ^ w) :
    2 ^ k * a + 2 ^ k ≤ 2 ^ w := by
  have hk : k ≤ w := by
    refine (Nat.pow_lt_pow_iff_right Nat.one_lt_two).mp (lt_of_le_of_lt ?_ hlt) |>.le
    exact Nat.le_mul_of_pos_right _ (Nat.pos_of_ne_zero ha)
  obtain ⟨j, rfl⟩ := Nat.exists_eq_add_of_le hk
  rw [pow_add] at hlt ⊢
  rw [← Nat.mul_succ]
  exact Nat.mul_le_mul_left _ (Nat.lt_of_mul_lt_mul_left hlt)

/-! ## A group of ones

The last group of ones of a number stands between a zero and the zeros at the end. The next number
has the first of them in the place of the zero, and the others at the end. -/

/-- In front of the zero is `p`, the group has `c + 1` ones, and `d` zeros follow. -/
def grouped (p c d : ℕ) : ℕ := 2 ^ (c + 1 + d) * (2 * p) + (2 ^ (c + 1 + d) - 2 ^ d)

def regrouped (p c d : ℕ) : ℕ := 2 ^ (c + 1 + d) * (2 * p + 1) + (2 ^ c - 1)

theorem two_pow_le_group (c d : ℕ) : 2 * 2 ^ d ≤ 2 ^ (c + 1 + d) := by
  rw [← pow_succ']
  exact Nat.pow_le_pow_right (by decide) (by omega)

theorem two_pow_lt_group (c d : ℕ) : 2 ^ c < 2 ^ (c + 1 + d) :=
  Nat.pow_lt_pow_right (by decide) (by omega)

/-- The zeros at the end, and what is in front of them. -/
theorem grouped_eq (p c d : ℕ) :
    grouped p c d = 2 ^ d * (2 * (2 ^ (c + 1) * p + (2 ^ c - 1)) + 1) := by
  have hc := Nat.two_pow_pos c
  have hodd : 2 * (2 ^ (c + 1) * p + (2 ^ c - 1)) + 1 =
      2 ^ (c + 1) * (2 * p) + (2 ^ (c + 1) - 1) := by
    rw [pow_succ, mul_left_comm _ 2 p]
    omega
  rw [hodd, grouped, Nat.mul_add, ← mul_assoc (2 ^ d), Nat.mul_sub, mul_one, ← pow_add,
    Nat.add_comm d]

theorem grouped_add (p c d : ℕ) : grouped p c d + 2 ^ d = 2 ^ (c + 1 + d) * (2 * p + 1) := by
  have hle := two_pow_le_group c d
  rw [grouped, Nat.mul_succ]
  omega

theorem two_pow_group_mul (c d a : ℕ) : 2 ^ (c + 1 + d) * a = 2 ^ c * (2 * (2 ^ d * a)) := by
  rw [pow_add, pow_succ]
  simp only [mul_assoc]

theorem regrouped_add_one_lt {w : ℕ} (h : 2 ^ (c + 1 + d) * (2 * p + 1) < 2 ^ w) :
    regrouped p c d + 1 < 2 ^ w := by
  have hroom := two_pow_mul_add_le (Nat.succ_ne_zero (2 * p)) h
  have hc := two_pow_lt_group c d
  have hcpos := Nat.two_pow_pos c
  rw [regrouped]
  rw [Nat.succ_eq_add_one] at hroom
  omega

/-- The ones at the end, and what is in front of them. -/
theorem regrouped_add_one (p c d : ℕ) :
    regrouped p c d + 1 = 2 ^ c * (2 * (2 ^ d * (2 * p + 1)) + 1) := by
  have hc := Nat.two_pow_pos c
  rw [regrouped, two_pow_group_mul, Nat.mul_succ (2 ^ c)]
  omega

/-- The number with the group, its first one apart. -/
theorem grouped_eq_or (p c d : ℕ) :
    grouped p c d = (2 ^ (c + 1 + d) * (2 * p) ||| 2 ^ (c + d)) ||| 2 ^ d * (2 ^ c - 1) := by
  have hpos := Nat.two_pow_pos (c + d)
  have hd := Nat.two_pow_pos d
  have hle : 2 ^ d ≤ 2 ^ (c + d) := Nat.pow_le_pow_right (by decide) (Nat.le_add_left d c)
  have hdouble : 2 ^ (c + 1 + d) = 2 ^ (c + d) * 2 := by rw [Nat.add_right_comm, pow_succ]
  have hrest : 2 ^ d * (2 ^ c - 1) = 2 ^ (c + d) - 2 ^ d := by
    rw [Nat.mul_sub, mul_one, ← pow_add, Nat.add_comm d]
  have hfirst : 2 ^ (c + 1 + d) * (2 * p) + 2 ^ (c + d) = 2 ^ (c + d) * (2 * (2 * p) + 1) := by
    rw [hdouble, mul_assoc, Nat.mul_succ]
  rw [← Nat.two_pow_add_eq_or_of_lt (by omega), hfirst, hrest,
    ← Nat.two_pow_add_eq_or_of_lt (by omega), ← hfirst, grouped]
  omega

theorem ones_group (c d : ℕ) : ones (2 ^ (c + 1 + d) - 2 ^ d) = c + 1 := by
  have hpow : 2 ^ (c + 1 + d) - 2 ^ d = 2 ^ d * (2 ^ (c + 1) - 1) + 0 := by
    rw [add_zero (2 ^ d * _), Nat.mul_sub, mul_one, ← pow_add, Nat.add_comm d]
  rw [hpow, ones_add _ (Nat.two_pow_pos d), ones_two_pow_sub_one, ones_zero, Nat.add_zero]

theorem ones_grouped (p c d : ℕ) : ones (grouped p c d) = ones p + (c + 1) := by
  have hlt : 2 ^ (c + 1 + d) - 2 ^ d < 2 ^ (c + 1 + d) :=
    Nat.sub_lt (Nat.two_pow_pos _) (Nat.two_pow_pos _)
  rw [grouped, ones_add _ hlt, ones_two_mul, ones_group]

theorem ones_regrouped (p c d : ℕ) : ones (regrouped p c d) = ones p + (c + 1) := by
  have hlt : 2 ^ c - 1 < 2 ^ (c + 1 + d) := (Nat.sub_le _ _).trans_lt (two_pow_lt_group c d)
  rw [regrouped, ones_add _ hlt, ones_two_mul_add_one, ones_two_pow_sub_one]
  omega

theorem grouped_lt_regrouped (p c d : ℕ) : grouped p c d < regrouped p c d := by
  have hd := Nat.two_pow_pos d
  have hle := two_pow_le_group c d
  rw [grouped, regrouped, Nat.mul_succ]
  omega

/-- Numbers between the two have another number of ones. -/
theorem eq_or_eq_of_ones_eq (hlow : grouped p c d ≤ x) (hhigh : x ≤ regrouped p c d)
    (hones : ones x = ones p + (c + 1)) : x = grouped p c d ∨ x = regrouped p c d := by
  have hc := two_pow_lt_group c d
  have hcpos := Nat.two_pow_pos c
  rw [grouped] at hlow ⊢
  rw [regrouped, Nat.mul_succ] at hhigh ⊢
  rcases Nat.lt_or_ge x (2 ^ (c + 1 + d) * (2 * p) + 2 ^ (c + 1 + d)) with hx | hx
  · obtain ⟨r, rfl⟩ := Nat.exists_eq_add_of_le ((Nat.le_add_right _ _).trans hlow)
    have hr : r < 2 ^ (c + 1 + d) := by omega
    have hrones : ones r = c + 1 := by
      rw [ones_add _ hr, ones_two_mul] at hones
      omega
    have hle := add_two_pow_le hr
    rw [hrones, Nat.add_sub_cancel_left] at hle
    omega
  · obtain ⟨r, rfl⟩ := Nat.exists_eq_add_of_le hx
    have hr : r < 2 ^ (c + 1 + d) := by omega
    have hrones : ones r = c := by
      rw [← Nat.mul_succ, ones_add _ hr, ones_two_mul_add_one] at hones
      omega
    have hle := two_pow_ones_le r
    rw [hrones] at hle
    omega

/-- The second number has the ones of the first, the last group regrouped. -/
def Regroups (n m : ℕ) : Prop := ∃ p c d, n = grouped p c d ∧ m = regrouped p c d

theorem Regroups.lt (h : Regroups n m) : n < m := by
  obtain ⟨p, c, d, rfl, rfl⟩ := h
  exact grouped_lt_regrouped p c d

theorem Regroups.ones_eq (h : Regroups n m) : ones m = ones n := by
  obtain ⟨p, c, d, rfl, rfl⟩ := h
  rw [ones_regrouped, ones_grouped]

theorem Regroups.eq_or_eq (h : Regroups n m) (hlow : n ≤ x) (hhigh : x ≤ m)
    (hones : ones x = ones n) : x = n ∨ x = m := by
  obtain ⟨p, c, d, rfl, rfl⟩ := h
  exact eq_or_eq_of_ones_eq hlow hhigh (hones.trans (ones_grouped p c d))

theorem Regroups.isLeast (h : Regroups n m) : IsLeast {x | n < x ∧ ones x = ones n} m := by
  refine ⟨⟨h.lt, h.ones_eq⟩, ?_⟩
  rintro x ⟨hlt, hones⟩
  by_contra hle
  rcases h.eq_or_eq hlt.le (Nat.le_of_not_le hle) hones with heq | heq
  · exact hlt.ne' heq
  · exact hle heq.ge

theorem Regroups.isGreatest (h : Regroups n m) : IsGreatest {x | x < m ∧ ones x = ones m} n := by
  refine ⟨⟨h.lt, h.ones_eq.symm⟩, ?_⟩
  rintro x ⟨hlt, hones⟩
  by_contra hle
  rcases h.eq_or_eq (Nat.le_of_not_le hle) hlt.le (hones.trans h.ones_eq) with heq | heq
  · exact hle heq.le
  · exact hlt.ne heq

theorem exists_eq_two_pow_mul (hn : n ≠ 0) : ∃ d q, n = 2 ^ d * (2 * q + 1) := by
  obtain ⟨d, m, ⟨q, rfl⟩, rfl⟩ := Nat.exists_eq_two_pow_mul_odd hn
  exact ⟨d, q, rfl⟩

theorem exists_grouped (hn : n ≠ 0) : ∃ p c d, n = grouped p c d := by
  obtain ⟨d, q, rfl⟩ := exists_eq_two_pow_mul hn
  obtain ⟨c, p, hp⟩ := exists_eq_two_pow_mul (Nat.succ_ne_zero q)
  refine ⟨p, c, d, ?_⟩
  have hc := Nat.two_pow_pos c
  have hq : q = 2 ^ (c + 1) * p + (2 ^ c - 1) := by
    rw [Nat.mul_succ, ← mul_assoc, ← pow_succ] at hp
    omega
  rw [grouped_eq, ← hq]

theorem exists_regrouped (hm : ∀ c, m + 1 ≠ 2 ^ c) : ∃ p c d, m = regrouped p c d := by
  obtain ⟨c, q, hq⟩ := exists_eq_two_pow_mul (Nat.succ_ne_zero m)
  have hqne : q ≠ 0 := by
    rintro rfl
    exact hm c (hq.trans (mul_one _))
  obtain ⟨d, p, rfl⟩ := exists_eq_two_pow_mul hqne
  exact ⟨p, c, d, Nat.succ_injective (hq.trans (regrouped_add_one p c d).symm)⟩

/-! ## The last one -/

variable (d q i : ℕ)

theorem testBit_odd : (2 ^ d * (2 * q + 1)).testBit i =
    if i < d then false else (2 * q + 1).testBit (i - d) := by
  have hbits := Nat.testBit_two_pow_mul_add (2 * q + 1) (Nat.two_pow_pos d) i
  rwa [Nat.zero_testBit] at hbits

theorem testBit_odd_pred : (2 ^ d * (2 * q + 1) - 1).testBit i =
    if i < d then true else (2 * q).testBit (i - d) := by
  have hpos := Nat.two_pow_pos d
  have hpred : 2 ^ d * (2 * q + 1) - 1 = 2 ^ d * (2 * q) + (2 ^ d - 1) := by
    rw [Nat.mul_succ]
    omega
  rw [hpred, Nat.testBit_two_pow_mul_add _ (Nat.sub_lt hpos Nat.one_pos),
    Nat.testBit_two_pow_sub_one]
  split_ifs with hi
  · exact decide_eq_true hi
  · rfl

theorem testBit_two_mul (q : ℕ) {j : ℕ} (hj : j ≠ 0) :
    (2 * q + 1).testBit j = (2 * q).testBit j := by
  obtain ⟨j, rfl⟩ := Nat.exists_eq_succ_of_ne_zero hj
  have hhalf : (2 * q + 1) / 2 = 2 * q / 2 := by omega
  rw [Nat.testBit_succ, Nat.testBit_succ, hhalf]

theorem land_pred : 2 ^ d * (2 * q + 1) &&& (2 ^ d * (2 * q + 1) - 1) = 2 ^ d * (2 * q) := by
  refine Nat.eq_of_testBit_eq fun i => ?_
  have hbits := Nat.testBit_two_pow_mul_add (2 * q) (Nat.two_pow_pos d) i
  rw [Nat.add_zero] at hbits
  rw [Nat.testBit_and, testBit_odd, testBit_odd_pred, hbits, Nat.zero_testBit]
  split_ifs with hi
  · rfl
  · by_cases hj : i - d = 0
    · rw [hj, Nat.testBit_zero, Nat.testBit_zero]
      simp
    · rw [testBit_two_mul q hj, Bool.and_self]

theorem ldiff_pred : Nat.ldiff (2 ^ d * (2 * q + 1)) (2 ^ d * (2 * q + 1) - 1) = 2 ^ d := by
  refine Nat.eq_of_testBit_eq fun i => ?_
  rw [Nat.testBit_ldiff, testBit_odd, testBit_odd_pred, Nat.testBit_two_pow]
  split_ifs with hi
  · exact (decide_eq_false hi.ne').symm
  · by_cases hj : i - d = 0
    · have hid : d = i := by omega
      rw [hj, Nat.testBit_zero, Nat.testBit_zero]
      simp [hid]
    · have hid : d ≠ i := by omega
      rw [testBit_two_mul q hj, Bool.and_not_self, decide_eq_false hid]

end InterviewQuestions.Library.OneBits

import InterviewQuestions.Library.Bits

/-! `bit_manipulation/next_largest_and_smallest/solution.c`. There is no result where an assertion
fails or a divisor is zero. -/
namespace InterviewQuestions.NextLargestAndSmallest

open Library.OneBits

def divide (a b : UInt32) : Option UInt32 := if b = 0 then none else some (a / b)

def nextLargest (n : UInt32) : Option UInt32 := do
  guard (n ≠ 0)
  guard (n ≠ ~~~0)
  let lsBit := n &&& ~~~(n - 1)
  let firstHalf := n + lsBit
  guard (firstHalf ≠ 0)
  let msBit := firstHalf &&& ~~~(firstHalf - 1)
  let rest := ((← divide msBit lsBit) - 1) >>> 1
  return firstHalf ||| rest

def nextSmallest (n : UInt32) : Option UInt32 := do
  guard (n ≠ 0)
  let noTrailingGrp := n &&& (n + 1)
  guard (noTrailingGrp ≠ 0)
  let hasTrailingGrp := noTrailingGrp ≠ n
  let lsBit := noTrailingGrp &&& ~~~(noTrailingGrp - 1)
  let lsBit := lsBit >>> 1
  let noTrailingGrp := noTrailingGrp &&& (noTrailingGrp - 1)
  let noTrailingGrp := noTrailingGrp ||| lsBit
  if ¬ hasTrailingGrp then
    return noTrailingGrp
  let msBitTrailingGrp := (n + 1) &&& ~~~n
  let rLim ← divide lsBit msBitTrailingGrp
  let limits := lsBit ||| (rLim >>> 1)
  let shiftedGrp := ~~~limits ||| rLim
  let shiftedGrp := shiftedGrp &&& ~~~(rLim - 1)
  let shiftedGrp := shiftedGrp &&& (lsBit - 1)
  return noTrailingGrp ||| shiftedGrp

/-- What the assertions of `nextLargest` ask for. -/
def LargestAccepts (n : UInt32) : Prop := n ≠ 0 ∧ n ≠ ~~~0 ∧ n + (n &&& ~~~(n - 1)) ≠ 0

/-- What the assertions of `nextSmallest` ask for. -/
def SmallestAccepts (n : UInt32) : Prop := n ≠ 0 ∧ n &&& (n + 1) ≠ 0

variable {a b n m x : UInt32} {p q c d : ℕ}

theorem nextLargest_eq_none (h : ¬ LargestAccepts n) : nextLargest n = none := by
  simp only [LargestAccepts, not_and_or, not_not] at h
  rcases h with h | h | h
  · simp [nextLargest, guard, h]
  · simp [nextLargest, guard, h]
  · simp [nextLargest, guard, h]

theorem nextSmallest_eq_none (h : ¬ SmallestAccepts n) : nextSmallest n = none := by
  simp only [SmallestAccepts, not_and_or, not_not] at h
  rcases h with h | h
  · simp [nextSmallest, guard, h]
  · simp [nextSmallest, guard, h]

theorem divide_eq (hb : b ≠ 0) : divide a b = some (a / b) := if_neg hb

/-! ## Bits -/

theorem toNat_sub_one (hx : x ≠ 0) : (x - 1).toNat = x.toNat - 1 := by
  refine UInt32.toNat_sub_of_le x 1 (UInt32.le_iff_toNat_le.mpr ?_)
  exact Nat.one_le_iff_ne_zero.mpr fun h => hx (UInt32.toNat_inj.mp h)

theorem testBit_not (x : UInt32) (i : ℕ) :
    (~~~x).toNat.testBit i = (decide (i < 32) && !x.toNat.testBit i) := by
  have hnot : (~~~x).toNat = 2 ^ 32 - (x.toNat + 1) :=
    (UInt32.toNat_not x).trans (Nat.sub_right_comm (2 ^ 32) 1 x.toNat)
  rw [hnot, Nat.testBit_two_pow_sub_succ x.toNat_lt]

theorem toNat_and_not (x y : UInt32) : (x &&& ~~~y).toNat = Nat.ldiff x.toNat y.toNat := by
  refine Nat.eq_of_testBit_eq fun i => ?_
  rw [UInt32.toNat_and, Nat.testBit_and, testBit_not, Nat.testBit_ldiff]
  by_cases hi : i < 32
  · rw [decide_eq_true hi, Bool.true_and]
  · have hlt : x.toNat < 2 ^ i :=
      x.toNat_lt.trans_le (Nat.pow_le_pow_right (by decide) (Nat.not_lt.mp hi))
    rw [Nat.testBit_lt_two_pow hlt, Bool.false_and, Bool.false_and]

theorem ne_zero_of_toNat (hx : x.toNat = 2 ^ d * (2 * q + 1)) : x ≠ 0 := by
  rintro rfl
  exact (Nat.mul_pos (Nat.two_pow_pos d) (Nat.succ_pos _)).ne hx

/-- `x & ~(x-1)` is the last of the ones. -/
theorem toNat_last (hx : x.toNat = 2 ^ d * (2 * q + 1)) : (x &&& ~~~(x - 1)).toNat = 2 ^ d := by
  rw [toNat_and_not, toNat_sub_one (ne_zero_of_toNat hx), hx, ldiff_pred]

/-- `x & (x-1)` has all the others. -/
theorem toNat_without_last (hx : x.toNat = 2 ^ d * (2 * q + 1)) :
    (x &&& (x - 1)).toNat = 2 ^ d * (2 * q) := by
  rw [UInt32.toNat_and, toNat_sub_one (ne_zero_of_toNat hx), hx, land_pred]

theorem ne_zero_of_toNat_eq_two_pow (hx : x.toNat = 2 ^ d) : x ≠ 0 := by
  rintro rfl
  exact (Nat.two_pow_pos d).ne hx

theorem toNat_shiftRight_one (x : UInt32) : (x >>> 1).toNat = x.toNat / 2 :=
  (UInt32.toNat_shiftRight x 1).trans (Nat.shiftRight_one _)

/-- Powers of two are divided, the higher by the lower. -/
theorem toNat_div {k : ℕ} (ha : a.toNat = 2 ^ (k + d)) (hb : b.toNat = 2 ^ d) :
    (a / b).toNat = 2 ^ k := by
  rw [UInt32.toNat_div, ha, hb, Nat.pow_div (Nat.le_add_left d k) Nat.two_pos, Nat.add_sub_cancel]

/-! ## The next largest number -/

theorem nextLargest_eq {ls ms : UInt32} (haccepts : LargestAccepts n)
    (hls : n &&& ~~~(n - 1) = ls) (hms : (n + ls) &&& ~~~(n + ls - 1) = ms) (hne : ls ≠ 0) :
    nextLargest n = some ((n + ls) ||| (ms / ls - 1) >>> 1) := by
  obtain ⟨hzero, hones, hfirst⟩ := haccepts
  subst hls hms
  simp only [nextLargest, guard, if_pos hzero, if_pos hones, if_pos hfirst, divide_eq hne]
  rfl

theorem nextLargest_of_regroups (h : Regroups n.toNat m.toNat) :
    LargestAccepts n ∧ nextLargest n = some m := by
  have hlt := h.lt
  obtain ⟨p, c, d, hn, hm⟩ := h
  have hm' := m.toNat_lt
  obtain ⟨ls, hls⟩ : ∃ ls, n &&& ~~~(n - 1) = ls := ⟨_, rfl⟩
  have hlast : ls.toNat = 2 ^ d := hls ▸ toNat_last (hn.trans (grouped_eq p c d))
  have hfirst : (n + ls).toNat = 2 ^ (c + 1 + d) * (2 * p + 1) := by
    rw [UInt32.toNat_add, hlast, hn, grouped_add]
    rw [hm, regrouped] at hm'
    exact Nat.mod_eq_of_lt ((Nat.le_add_right _ _).trans_lt hm')
  have haccepts : LargestAccepts n := by
    refine ⟨ne_zero_of_toNat (hn.trans (grouped_eq p c d)), ?_, hls ▸ ne_zero_of_toNat hfirst⟩
    rintro rfl
    exact absurd hm' (Nat.not_lt.mpr hlt)
  refine ⟨haccepts, ?_⟩
  rw [nextLargest_eq haccepts hls rfl (ne_zero_of_toNat_eq_two_pow hlast)]
  refine congrArg some (UInt32.toNat_inj.mp ?_)
  have hdiv := toNat_div (toNat_last hfirst) hlast
  have hhalf : (2 ^ (c + 1) - 1) / 2 = 2 ^ c - 1 := by
    rw [pow_succ]
    omega
  have hc : 2 ^ c - 1 < 2 ^ (c + 1 + d) := (Nat.sub_le _ _).trans_lt (two_pow_lt_group c d)
  rw [UInt32.toNat_or, toNat_shiftRight_one, toNat_sub_one (ne_zero_of_toNat_eq_two_pow hdiv),
    hdiv, hhalf, hfirst, ← Nat.two_pow_add_eq_or_of_lt hc, hm, regrouped]

theorem exists_regroups (hn : n.toNat = grouped p c d) (hlt : regrouped p c d < 2 ^ 32) :
    ∃ m : UInt32, Regroups n.toNat m.toNat :=
  ⟨UInt32.ofNat (regrouped p c d), p, c, d, hn, UInt32.toNat_ofNat_of_lt hlt⟩

theorem exists_regroups_of_largestAccepts (h : LargestAccepts n) :
    ∃ m : UInt32, Regroups n.toNat m.toNat := by
  obtain ⟨hzero, -, hfirst⟩ := h
  obtain ⟨p, c, d, hn⟩ := exists_grouped fun h => hzero (UInt32.toNat_inj.mp h)
  have hodd := hn.trans (grouped_eq p c d)
  have hlt : 2 ^ (c + 1 + d) * (2 * p + 1) < 2 ^ 32 := by
    have hle := two_pow_mul_add_le (Nat.succ_ne_zero _) (hodd ▸ n.toNat_lt)
    rw [Nat.succ_eq_add_one, ← hodd, hn, grouped_add] at hle
    refine Nat.lt_of_le_of_ne hle fun heq => hfirst (UInt32.toNat_inj.mp ?_)
    rw [UInt32.toNat_add, toNat_last hodd, hn, grouped_add, heq]
    rfl
  exact exists_regroups hn (Nat.lt_of_succ_lt (regrouped_add_one_lt hlt))

/-! ## The next smallest number -/

theorem toNat_add_one (hx : x + 1 ≠ 0) : (x + 1).toNat = x.toNat + 1 := by
  have hlt := x.toNat_lt
  have hadd : (x + 1).toNat = (x.toNat + 1) % 2 ^ 32 := UInt32.toNat_add x 1
  rw [hadd]
  refine Nat.mod_eq_of_lt (Nat.lt_of_le_of_ne hlt fun heq => hx (UInt32.toNat_inj.mp ?_))
  rw [hadd, heq]
  rfl

theorem exists_regroups_of_ne_two_pow (hm : ∀ c, m.toNat + 1 ≠ 2 ^ c) :
    ∃ n : UInt32, Regroups n.toNat m.toNat := by
  obtain ⟨p, c, d, hm⟩ := exists_regrouped hm
  have hn : grouped p c d < 2 ^ 32 := (grouped_lt_regrouped p c d).trans (hm ▸ m.toNat_lt)
  exact ⟨UInt32.ofNat (grouped p c d), p, c, d, UInt32.toNat_ofNat_of_lt hn, hm⟩

theorem exists_regroups_of_smallestAccepts (h : SmallestAccepts m) :
    ∃ n : UInt32, Regroups n.toNat m.toNat := by
  obtain ⟨-, hgrp⟩ := h
  have hsucc : m + 1 ≠ 0 := by
    intro hzero
    rw [hzero, UInt32.and_zero] at hgrp
    exact hgrp rfl
  refine exists_regroups_of_ne_two_pow fun c hc => ?_
  have hlast : (m + 1).toNat = 2 ^ c * (2 * 0 + 1) := by
    rw [toNat_add_one hsucc, hc]
    exact (mul_one _).symm
  have hrest := toNat_without_last hlast
  rw [UInt32.add_sub_cancel, UInt32.and_comm] at hrest
  exact hgrp (UInt32.toNat_inj.mp hrest)

/-- The trailing group is moved up to the bit `ls`. -/
theorem toNat_shiftedGrp {ls rLim : UInt32} (hls : ls.toNat = 2 ^ (c + d))
    (hrLim : rLim.toNat = 2 ^ d) :
    (((~~~(ls ||| (rLim >>> 1)) ||| rLim) &&& ~~~(rLim - 1)) &&& (ls - 1)).toNat =
      2 ^ d * (2 ^ c - 1) := by
  have hlt : c + d < 32 := (Nat.pow_lt_pow_iff_right Nat.one_lt_two).mp (hls ▸ ls.toNat_lt)
  have hlow : (rLim - 1).toNat = 2 ^ d - 1 := by
    rw [toNat_sub_one (ne_zero_of_toNat_eq_two_pow hrLim), hrLim]
  have hmask : (ls - 1).toNat = 2 ^ (c + d) - 1 := by
    rw [toNat_sub_one (ne_zero_of_toNat_eq_two_pow hls), hls]
  refine Nat.eq_of_testBit_eq fun i => ?_
  rw [UInt32.toNat_and, UInt32.toNat_and, UInt32.toNat_or, Nat.testBit_and, Nat.testBit_and,
    Nat.testBit_or, testBit_not, testBit_not, UInt32.toNat_or, Nat.testBit_or,
    toNat_shiftRight_one, Nat.testBit_div_two, hls, hrLim, hlow, hmask,
    Nat.testBit_two_pow_mul, Bool.eq_iff_iff]
  simp only [Nat.testBit_two_pow, Nat.testBit_two_pow_sub_one, Bool.and_eq_true,
    Bool.or_eq_true, Bool.not_eq_true', decide_eq_true_eq, decide_eq_false_iff_not,
    Bool.or_eq_false_iff]
  omega

theorem nextSmallest_eq {grp ls rLim : UInt32} (haccepts : SmallestAccepts m)
    (hgrp : m &&& (m + 1) = grp) (hls : (grp &&& ~~~(grp - 1)) >>> 1 = ls)
    (hne : (m + 1) &&& ~~~m ≠ 0) (hrLim : ls / ((m + 1) &&& ~~~m) = rLim) :
    nextSmallest m = if grp = m then some ((grp &&& (grp - 1)) ||| ls)
      else some (((grp &&& (grp - 1)) ||| ls) |||
        (((~~~(ls ||| (rLim >>> (1 : UInt32))) ||| rLim) &&& ~~~(rLim - 1)) &&& (ls - 1))) := by
  obtain ⟨hzero, hgrp'⟩ := haccepts
  subst hls hrLim
  rw [hgrp] at hgrp'
  simp only [nextSmallest, guard, hgrp, if_pos hzero, if_pos hgrp', divide_eq hne]
  by_cases hsame : grp = m
  · rw [if_pos hsame]
    simp [hsame]
  · rw [if_neg hsame]
    simp [hsame]

/-- `n+1` has a one in front of the trailing group, and zeros in its place. -/
theorem toNat_add_one_of_regrouped (hm : m.toNat = regrouped p c d) :
    (m + 1).toNat = 2 ^ c * (2 * (2 ^ d * (2 * p + 1)) + 1) := by
  have hlt : 2 ^ (c + 1 + d) * (2 * p + 1) < 2 ^ 32 := by
    have hm' := m.toNat_lt
    rw [hm, regrouped] at hm'
    exact (Nat.le_add_right _ _).trans_lt hm'
  have hadd : (m + 1).toNat = (m.toNat + 1) % 2 ^ 32 := UInt32.toNat_add m 1
  rw [hadd, hm, Nat.mod_eq_of_lt (regrouped_add_one_lt hlt), regrouped_add_one]

/-- `n & (n+1)` is without the trailing group. -/
theorem toNat_noTrailingGrp (hm : m.toNat = regrouped p c d) :
    (m &&& (m + 1)).toNat = 2 ^ (c + 1 + d) * (2 * p + 1) := by
  have hrest := toNat_without_last (toNat_add_one_of_regrouped hm)
  rw [UInt32.add_sub_cancel, UInt32.and_comm] at hrest
  rw [hrest, two_pow_group_mul]

theorem smallestAccepts_of_regrouped (hm : m.toNat = regrouped p c d) : SmallestAccepts m := by
  have hne := ne_zero_of_toNat (toNat_noTrailingGrp hm)
  refine ⟨fun hzero => hne ?_, hne⟩
  rw [hzero, UInt32.zero_and]

theorem nextSmallest_of_regroups (h : Regroups n.toNat m.toNat) :
    SmallestAccepts m ∧ nextSmallest m = some n := by
  obtain ⟨p, c, d, hn, hm⟩ := h
  have haccepts := smallestAccepts_of_regrouped hm
  refine ⟨haccepts, ?_⟩
  obtain ⟨grp, hgrp⟩ : ∃ grp, m &&& (m + 1) = grp := ⟨_, rfl⟩
  have hgrpNat : grp.toNat = 2 ^ (c + 1 + d) * (2 * p + 1) := hgrp ▸ toNat_noTrailingGrp hm
  obtain ⟨ls, hls⟩ : ∃ ls, (grp &&& ~~~(grp - 1)) >>> 1 = ls := ⟨_, rfl⟩
  have hlsNat : ls.toNat = 2 ^ (c + d) := by
    rw [← hls, toNat_shiftRight_one, toNat_last hgrpNat, Nat.add_right_comm, pow_succ,
      Nat.mul_div_cancel _ Nat.two_pos]
  have hmsbNat : ((m + 1) &&& ~~~m).toNat = 2 ^ c := by
    have hlast := toNat_last (toNat_add_one_of_regrouped hm)
    rwa [UInt32.add_sub_cancel] at hlast
  have hrLim : (ls / ((m + 1) &&& ~~~m)).toNat = 2 ^ d :=
    toNat_div (hlsNat.trans (congrArg _ (Nat.add_comm c d))) hmsbNat
  rw [nextSmallest_eq haccepts hgrp hls (ne_zero_of_toNat_eq_two_pow hmsbNat) rfl]
  have htop : ((grp &&& (grp - 1)) ||| ls).toNat = 2 ^ (c + 1 + d) * (2 * p) ||| 2 ^ (c + d) := by
    rw [UInt32.toNat_or, toNat_without_last hgrpNat, hlsNat]
  by_cases hsame : grp = m
  · have hc : 2 ^ c - 1 = 0 := by
      rw [hsame, hm, regrouped] at hgrpNat
      omega
    rw [if_pos hsame]
    refine congrArg some (UInt32.toNat_inj.mp ?_)
    rw [htop, hn, grouped_eq_or, hc, Nat.mul_zero, Nat.or_zero]
  · rw [if_neg hsame]
    refine congrArg some (UInt32.toNat_inj.mp ?_)
    rw [UInt32.toNat_or, htop, toNat_shiftedGrp hlsNat hrLim, hn, grouped_eq_or]

/-! ## The closest numbers -/

/-- The assertions hold exactly where a number above has as many ones. -/
theorem nextLargest_isSome_iff :
    (nextLargest n).isSome = true ↔ ∃ m : UInt32, n < m ∧ ones m.toNat = ones n.toNat := by
  constructor
  · intro hsome
    by_cases haccepts : LargestAccepts n
    · obtain ⟨m, hm⟩ := exists_regroups_of_largestAccepts haccepts
      exact ⟨m, UInt32.lt_iff_toNat_lt.mpr hm.lt, hm.ones_eq⟩
    · rw [nextLargest_eq_none haccepts] at hsome
      cases hsome
  · rintro ⟨m, hlt, hones⟩
    have hlt := UInt32.lt_iff_toNat_lt.mp hlt
    have hn : n.toNat ≠ 0 := by
      intro hzero
      have hle := add_two_pow_le m.toNat_lt
      rw [hones, hzero, ones_zero] at hle
      omega
    obtain ⟨p, c, d, hn⟩ := exists_grouped hn
    have hm : regrouped p c d ≤ m.toNat := Regroups.isLeast ⟨p, c, d, hn, rfl⟩ |>.2 ⟨hlt, hones⟩
    obtain ⟨next, hnext⟩ := exists_regroups hn (hm.trans_lt m.toNat_lt)
    rw [(nextLargest_of_regroups hnext).2]
    rfl

/-- The assertions hold exactly where a number below has as many ones. -/
theorem nextSmallest_isSome_iff :
    (nextSmallest n).isSome = true ↔ ∃ m : UInt32, m < n ∧ ones m.toNat = ones n.toNat := by
  constructor
  · intro hsome
    by_cases haccepts : SmallestAccepts n
    · obtain ⟨m, hm⟩ := exists_regroups_of_smallestAccepts haccepts
      exact ⟨m, UInt32.lt_iff_toNat_lt.mpr hm.lt, hm.ones_eq.symm⟩
    · rw [nextSmallest_eq_none haccepts] at hsome
      cases hsome
  · rintro ⟨m, hlt, hones⟩
    have hlt := UInt32.lt_iff_toNat_lt.mp hlt
    have hn : ∀ c, n.toNat + 1 ≠ 2 ^ c := by
      intro c hc
      have hle := two_pow_ones_le m.toNat
      rw [hones, Nat.eq_sub_of_add_eq hc, ones_two_pow_sub_one] at hle
      omega
    obtain ⟨last, hlast⟩ := exists_regroups_of_ne_two_pow hn
    rw [(nextSmallest_of_regroups hlast).2]
    rfl

/-- Each function gives the closest number with as many ones, and each undoes the other. -/
theorem nextLargest_nextSmallest (n : UInt32) :
    (LargestAccepts n → ∃ m, nextLargest n = some m ∧
      IsLeast {k | n.toNat < k ∧ ones k = ones n.toNat} m.toNat ∧
      SmallestAccepts m ∧ nextSmallest m = some n) ∧
    (SmallestAccepts n → ∃ m, nextSmallest n = some m ∧
      IsGreatest {k | k < n.toNat ∧ ones k = ones n.toNat} m.toNat ∧
      LargestAccepts m ∧ nextLargest m = some n) := by
  constructor
  · intro haccepts
    obtain ⟨m, hm⟩ := exists_regroups_of_largestAccepts haccepts
    exact ⟨m, (nextLargest_of_regroups hm).2, hm.isLeast, nextSmallest_of_regroups hm⟩
  · intro haccepts
    obtain ⟨m, hm⟩ := exists_regroups_of_smallestAccepts haccepts
    exact ⟨m, (nextSmallest_of_regroups hm).2, hm.isGreatest, nextLargest_of_regroups hm⟩

theorem nextLargest_nextSmallest_twentytwo :
    (∃ m, nextLargest 22 = some m ∧ IsLeast {k | 22 < k ∧ ones k = ones 22} m.toNat ∧
      SmallestAccepts m ∧ nextSmallest m = some 22) ∧
    (∃ m, nextSmallest 22 = some m ∧ IsGreatest {k | k < 22 ∧ ones k = ones 22} m.toNat ∧
      LargestAccepts m ∧ nextLargest m = some 22) :=
  ⟨(nextLargest_nextSmallest 22).1 ⟨by decide, by decide, by decide⟩,
    (nextLargest_nextSmallest 22).2 ⟨by decide, by decide⟩⟩

end InterviewQuestions.NextLargestAndSmallest

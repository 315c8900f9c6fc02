import InterviewQuestions.Library.Arithmetic
import InterviewQuestions.Library.CountingLoop
import InterviewQuestions.Library.Packing
import Mathlib.Data.List.GetD

/-! The three versions of `recursion_dp/rod_cutting`. There is no result where an index is out of
range, where a sum is no `int`, and where a recursion is deeper than `depth`. -/
namespace InterviewQuestions.RodCutting

open Library.Arithmetic

/-! ## `solution.c` -/

namespace Naive

def max (a b : ℤ) : ℤ := if a > b then a else b

def cutRod (prices : List ℤ) : ℕ → ℤ → Option ℤ
  | 0, _ => none
  | depth + 1, rodLen =>
      if rodLen ≤ 0 then some 0
      else do
        let price ← prices[0]?
        let rest ← cutRod prices depth (rodLen - 1)
        let res ← int (price + rest)
        (List.range' 1 (rodLen.toNat - 1)).foldlM (fun res (i : ℕ) => do
          let price ← prices[i]?
          let rest ← cutRod prices depth (rodLen - i - 1)
          let sum ← int (price + rest)
          return max res sum) res

end Naive

/-! ## `solution_dp_topdown.cpp` -/

namespace TopDown

/-- The result, and the table after the call. -/
def cutRodAux (prices : List ℤ) : ℕ → ℤ → List ℤ → Option (ℤ × List ℤ)
  | 0, _, _ => none
  | depth + 1, len, dp =>
      if len ≤ 0 then some (0, dp)
      else do
        let known ← dp[len.toNat]?
        if known ≠ -1 then return (known, dp)
        else do
          let price ← prices[0]?
          let (rest, dp) ← cutRodAux prices depth (len - 1) dp
          let res ← int (price + rest)
          let (res, dp) ← (List.range' 1 (len.toNat - 1)).foldlM (fun (res, dp) (i : ℕ) => do
            let price ← prices[i]?
            let (rest, dp) ← cutRodAux prices depth (len - i - 1) dp
            let sum ← int (price + rest)
            return (max res sum, dp)) (res, dp)
          return (res, dp.set len.toNat res)

/-- The size is converted to an `int`. -/
def cutRod (prices : List ℤ) (depth : ℕ) : Option ℤ :=
  let dp := List.replicate (prices.length + 1) (-1)
  (cutRodAux prices depth ((prices.length : ℤ).bmod (2 ^ 32)) dp).map Prod.fst

end TopDown

/-! ## `solution_dp_bottomup.cpp` -/

namespace BottomUp

/-- The inner loop. -/
def entry (prices : List ℤ) (l : ℕ) (dp : List ℤ) : Option (List ℤ) :=
  (List.range' 1 (l - 1)).foldlM (fun dp i => do
    let best ← dp[l]?
    let rest ← dp[i]?
    let price ← prices[l - i - 1]?
    let sum ← int (rest + price)
    return dp.set l (max best sum)) dp

def cutRod (prices : List ℤ) : Option ℤ := do
  let dp := (List.replicate (prices.length + 1) 0).set 0 0
  let dp ← (List.range' 1 prices.length).foldlM (fun dp l => do
    let rest ← dp[0]?
    let price ← prices[l - 1]?
    let sum ← int (rest + price)
    entry prices l (dp.set l sum)) dp
  dp[prices.length]?

end BottomUp

/-! All versions return the best total, but the one with a memo table does so for the length that
is left after the conversion to `int`. -/

open Library Library.Arithmetic Library.Cutting

/-- The price of a piece. -/
def priceOf (prices : List ℤ) (p : ℕ) : ℤ := prices.getD (p - 1) 0

/-- Whatever the pieces, their total is an `int`. -/
def InRange (prices : List ℤ) : Prop :=
  ∀ n ≤ prices.length, ∀ v ∈ totals (priceOf prices) n, -2 ^ 31 ≤ v ∧ v < 2 ^ 31

def Best (prices : List ℤ) (n : ℕ) (v : ℤ) : Prop := IsGreatest (totals (priceOf prices) n) v

/-- The best of the cuts whose first piece is one of `pieces`. -/
def BestLed (prices : List ℤ) (n : ℕ) (pieces : Set ℕ) (v : ℤ) : Prop :=
  IsGreatest (led (priceOf prices) n pieces) v

variable {prices : List ℤ} {n : ℕ} {pieces : Set ℕ} {v rest : ℤ}

theorem best_zero (prices : List ℤ) : Best prices 0 0 := by
  unfold Best
  rw [totals_zero]
  exact isGreatest_singleton

theorem BestLed.best (h : BestLed prices n pieces v) (hn : 0 < n) (hpieces : Set.Icc 1 n ⊆ pieces) :
    Best prices n v := by
  unfold Best
  rw [totals_eq_led _ hn hpieces]
  exact h

theorem getElem?_eq_priceOf {i : ℕ} (hi : i < prices.length) :
    prices[i]? = some (priceOf prices (i + 1)) := by
  rw [priceOf, Nat.add_sub_cancel, List.getD_eq_getElem?_getD, List.getElem?_eq_getElem hi]
  rfl

/-- The sum that a loop makes of the price of its piece and the best of the rest. -/
theorem int_add {p : ℕ} (hrange : InRange prices) (hn : n ≤ prices.length) (hp : 0 < p)
    (hle : p ≤ n) (h : Best prices (n - p) rest) :
    int (priceOf prices p + rest) = some (priceOf prices p + rest) := by
  have hsum := hrange n hn _ (add_mem_totals hp hle h.1)
  exact int_eq_some.mpr ⟨rfl, hsum⟩

theorem BestLed.first {p : ℕ} (hp : 0 < p) (hle : p ≤ n) (h : Best prices (n - p) rest) :
    BestLed prices n {p} (priceOf prices p + rest) :=
  isGreatest_led_singleton hp hle h

/-- One more piece is tried. -/
theorem BestLed.step {p : ℕ} (hv : BestLed prices n pieces v) (hp : 0 < p) (hle : p ≤ n)
    (h : Best prices (n - p) rest) :
    BestLed prices n (insert p pieces) (max v (priceOf prices p + rest)) :=
  isGreatest_led_insert hp hle hv h

theorem Icc_one_succ (i : ℕ) : Set.Icc 1 (i + 1) = insert (i + 1) (Set.Icc 1 i) := by
  ext p
  simp only [Set.mem_insert_iff, Set.mem_Icc]
  omega

theorem Ioc_sub_one (hn : 0 < n) : Set.Ioc (n - 1) n = {n} := by
  ext p
  simp only [Set.mem_singleton_iff, Set.mem_Ioc]
  omega

theorem Ioc_sub_succ {i : ℕ} (hi : i < n) :
    Set.Ioc (n - (i + 1)) n = insert (n - i) (Set.Ioc (n - i) n) := by
  ext p
  simp only [Set.mem_insert_iff, Set.mem_Ioc]
  omega

/-! ## The recursion -/

namespace Naive

theorem max_eq (a b : ℤ) : max a b = Max.max a b := by
  unfold max
  by_cases hlt : a > b
  · rw [if_pos hlt, max_eq_left hlt.le]
  · rw [if_neg hlt, max_eq_right (not_lt.mp hlt)]

theorem cutRod_best (hrange : InRange prices) (depth : ℕ) (hn : n ≤ prices.length)
    (hdepth : n < depth) : ∃ v, cutRod prices depth n = some v ∧ Best prices n v := by
  induction depth generalizing n with
  | zero => omega
  | succ depth ih =>
    rw [cutRod]
    by_cases hzero : (n : ℤ) ≤ 0
    · have hn : n = 0 := by omega
      subst hn
      exact ⟨0, if_pos hzero, best_zero prices⟩
    · have hpos : 0 < n := by omega
      obtain ⟨rest, hrest, hbest⟩ := ih (n := n - 1) (by omega) (by omega)
      have hcast : ((n - 1 : ℕ) : ℤ) = (n : ℤ) - 1 := by omega
      rw [hcast] at hrest
      rw [if_neg hzero, getElem?_eq_priceOf (by omega), hrest]
      simp only [Option.bind_eq_bind, Option.bind_some, Nat.zero_add,
        int_add hrange hn Nat.one_pos hpos hbest, Int.toNat_natCast]
      refine foldlM_range'_spec (fun i v => BestLed prices n (Set.Icc 1 i) v) ?_ ?_ ?_
      · intro i v hi hlt hv
        obtain ⟨rest, hrest, hbest⟩ := ih (n := n - (i + 1)) (by omega) (by omega)
        have hcast : ((n - (i + 1) : ℕ) : ℤ) = (n : ℤ) - i - 1 := by omega
        rw [hcast] at hrest
        rw [getElem?_eq_priceOf (by omega), hrest]
        simp only [Option.bind_some, int_add hrange hn i.succ_pos (by omega) hbest]
        refine ⟨_, rfl, ?_⟩
        rw [max_eq, Icc_one_succ]
        exact hv.step i.succ_pos (by omega) hbest
      · rw [Set.Icc_self]
        exact BestLed.first Nat.one_pos hpos hbest
      · intro v hv
        exact hv.best hpos (by rw [Nat.add_sub_cancel' hpos])

end Naive

/-! ## The memo table -/

namespace TopDown

/-- The entries other than -1 are right. -/
structure Sound (prices dp : List ℤ) : Prop where
  size : dp.length = prices.length + 1
  right : ∀ k v, dp[k]? = some v → v ≠ -1 → Best prices k v

theorem Sound.set {dp : List ℤ} (h : Sound prices dp) (hv : Best prices n v) :
    Sound prices (dp.set n v) := by
  refine ⟨by rw [List.length_set, h.size], ?_⟩
  intro k w hk hw
  rw [List.getElem?_set] at hk
  split at hk
  case isTrue heq =>
    split at hk
    · cases hk
      exact heq ▸ hv
    · cases hk
  case isFalse => exact h.right k w hk hw

theorem cutRodAux_of_nonpos {len : ℤ} (h : len ≤ 0) (depth : ℕ) (dp : List ℤ) :
    cutRodAux prices (depth + 1) len dp = some (0, dp) :=
  if_pos h

theorem cutRodAux_best (hrange : InRange prices) (depth : ℕ) {dp : List ℤ} (hdp : Sound prices dp)
    (hn : n ≤ prices.length) (hdepth : n < depth) :
    ∃ res, cutRodAux prices depth n dp = some res ∧ Best prices n res.1 ∧ Sound prices res.2 := by
  induction depth generalizing n dp with
  | zero => omega
  | succ depth ih =>
    rw [cutRodAux]
    by_cases hzero : (n : ℤ) ≤ 0
    · have hn : n = 0 := by omega
      subst hn
      exact ⟨_, if_pos hzero, best_zero prices, hdp⟩
    · have hpos : 0 < n := by omega
      obtain ⟨known, hknown⟩ : ∃ known, dp[n]? = some known :=
        ⟨_, List.getElem?_eq_getElem (by rw [hdp.size]; omega)⟩
      rw [if_neg hzero, Int.toNat_natCast, hknown]
      simp only [Option.bind_eq_bind, Option.bind_some]
      by_cases hset : known ≠ -1
      · exact ⟨_, if_pos hset, hdp.right n known hknown hset, hdp⟩
      · obtain ⟨⟨rest, dp'⟩, hrest, hbest, hdp'⟩ := ih hdp (n := n - 1) (by omega) (by omega)
        have hcast : ((n - 1 : ℕ) : ℤ) = (n : ℤ) - 1 := by omega
        rw [hcast] at hrest
        rw [if_neg hset, getElem?_eq_priceOf (by omega), hrest]
        simp only [Option.bind_some, Nat.zero_add, int_add hrange hn Nat.one_pos hpos hbest]
        refine bind_spec (fun s => Best prices n s.1 ∧ Sound prices s.2)
          (foldlM_range'_spec
            (fun i s => BestLed prices n (Set.Icc 1 i) s.1 ∧ Sound prices s.2) ?_ ?_ ?_) ?_
        · rintro i ⟨v, dp⟩ hi hlt ⟨hv, hdp⟩
          obtain ⟨⟨rest, dp'⟩, hrest, hbest, hdp'⟩ :=
            ih hdp (n := n - (i + 1)) (by omega) (by omega)
          have hcast : ((n - (i + 1) : ℕ) : ℤ) = (n : ℤ) - i - 1 := by omega
          rw [hcast] at hrest
          simp only [getElem?_eq_priceOf (show i < prices.length by omega), hrest, Option.bind_some,
            int_add hrange hn i.succ_pos (by omega) hbest]
          refine ⟨_, rfl, ?_, hdp'⟩
          rw [Icc_one_succ]
          exact hv.step i.succ_pos (by omega) hbest
        · rw [Set.Icc_self]
          exact ⟨BestLed.first Nat.one_pos hpos hbest, hdp'⟩
        · rintro ⟨v, dp⟩ ⟨hv, hdp⟩
          exact ⟨hv.best hpos (by rw [Nat.add_sub_cancel' hpos]), hdp⟩
        · rintro ⟨v, dp⟩ ⟨hv, hdp⟩
          exact ⟨_, rfl, hv, hdp.set hv⟩

/-- The length that the recursion starts with. -/
def startLength (prices : List ℤ) : ℕ := ((prices.length : ℤ).bmod (2 ^ 32)).toNat

theorem startLength_le (prices : List ℤ) : startLength prices ≤ prices.length := by
  have hmod := Nat.mod_le prices.length (2 ^ 32)
  unfold startLength
  rcases bmod_cases prices.length with ⟨-, heq⟩ | ⟨-, heq⟩ <;> omega

theorem startLength_eq (h : prices.length < 2 ^ 31) : startLength prices = prices.length := by
  have hmod := Nat.mod_eq_of_lt (h.trans (by decide : 2 ^ 31 < 2 ^ 32))
  unfold startLength
  rcases bmod_cases prices.length with ⟨-, heq⟩ | ⟨hlarge, -⟩ <;> omega

theorem cutRod_best (hrange : InRange prices) {depth : ℕ} (hdepth : prices.length < depth) :
    ∃ v, cutRod prices depth = some v ∧ Best prices (startLength prices) v := by
  have hdp : Sound prices (List.replicate (prices.length + 1) (-1)) := by
    refine ⟨List.length_replicate, fun k v hk hv => ?_⟩
    rw [List.getElem?_replicate] at hk
    split at hk <;> cases hk
    exact absurd rfl hv
  have hle := startLength_le prices
  obtain ⟨res, hres, hbest, -⟩ := cutRodAux_best hrange depth hdp hle (by omega)
  refine ⟨res.1, ?_, hbest⟩
  -- a negative length ends the recursion as 0 does
  have hcall : cutRodAux prices depth ((prices.length : ℤ).bmod (2 ^ 32))
      (List.replicate (prices.length + 1) (-1)) = some res := by
    rw [← hres]
    by_cases hneg : (prices.length : ℤ).bmod (2 ^ 32) ≤ 0
    · have hzero : startLength prices = 0 := Int.toNat_of_nonpos hneg
      obtain ⟨depth, rfl⟩ := Nat.exists_eq_succ_of_ne_zero (by omega : depth ≠ 0)
      rw [hzero, cutRodAux_of_nonpos hneg, cutRodAux_of_nonpos (Nat.cast_zero.le)]
    · have hcast : (startLength prices : ℤ) = (prices.length : ℤ).bmod (2 ^ 32) :=
        Int.toNat_of_nonneg (not_le.mp hneg).le
      rw [hcast]
  change (cutRodAux prices depth _ _).map Prod.fst = _
  rw [hcall]
  rfl

end TopDown

/-! ## The full table -/

namespace BottomUp

/-- The entries below `l` are right. -/
structure Filled (prices : List ℤ) (l : ℕ) (dp : List ℤ) : Prop where
  size : dp.length = prices.length + 1
  right : ∀ k < l, ∃ v, dp[k]? = some v ∧ Best prices k v

variable {dp : List ℤ} {l : ℕ}

theorem Filled.set (h : Filled prices l dp) (v : ℤ) : Filled prices l (dp.set l v) := by
  refine ⟨by rw [List.length_set, h.size], ?_⟩
  intro k hk
  obtain ⟨w, hw, hbest⟩ := h.right k hk
  exact ⟨w, by rwa [List.getElem?_set_ne (by omega)], hbest⟩

theorem entry_best (hrange : InRange prices) (hpos : 0 < l) (hl : l ≤ prices.length)
    (hdp : Filled prices l dp) (hv : dp[l]? = some v) (hled : BestLed prices l {l} v) :
    ∃ dp', entry prices l dp = some dp' ∧ Filled prices (l + 1) dp' := by
  unfold entry
  refine foldlM_range'_spec (fun i dp => Filled prices l dp ∧
    ∃ v, dp[l]? = some v ∧ BestLed prices l (Set.Ioc (l - i) l) v) ?_ ?_ ?_
  · rintro i dp hi hlt ⟨hdp, v, hv, hled⟩
    obtain ⟨rest, hrest, hbest⟩ := hdp.right i (by omega)
    have hcut : l - i - 1 + 1 = l - i := by omega
    have hback : l - (l - i) = i := by omega
    have hbest' : Best prices (l - (l - i)) rest := by rwa [hback]
    rw [hv, hrest, getElem?_eq_priceOf (show l - i - 1 < prices.length by omega), hcut]
    simp only [Option.bind_eq_bind, Option.bind_some, add_comm rest,
      int_add hrange hl (show 0 < l - i by omega) (by omega) hbest']
    refine ⟨_, rfl, hdp.set _, _, List.getElem?_set_self (by rw [hdp.size]; omega), ?_⟩
    rw [Ioc_sub_succ (by omega)]
    exact hled.step (by omega) (by omega) hbest'
  · refine ⟨hdp, v, hv, ?_⟩
    rw [Ioc_sub_one hpos]
    exact hled
  · rintro dp ⟨hdp, v, hv, hled⟩
    have hend : l - (1 + (l - 1)) = 0 := by omega
    rw [hend] at hled
    refine ⟨hdp.size, fun k hk => ?_⟩
    by_cases heq : k = l
    · exact ⟨v, heq ▸ hv, heq ▸ hled.best hpos fun p hp => hp⟩
    · exact hdp.right k (by omega)

theorem cutRod_best (hrange : InRange prices) :
    ∃ v, cutRod prices = some v ∧ Best prices prices.length v := by
  unfold cutRod
  have hstart : Filled prices 1 ((List.replicate (prices.length + 1) 0).set 0 0) := by
    refine ⟨by rw [List.length_set, List.length_replicate], fun k hk => ?_⟩
    have hk : k = 0 := by omega
    subst hk
    exact ⟨0, rfl, best_zero prices⟩
  refine bind_spec (Filled prices (1 + prices.length))
    (foldlM_range'_spec (Filled prices) ?_ hstart fun dp hdp => hdp) ?_
  · intro l dp hl hlt hdp
    obtain ⟨rest, hrest, hbest⟩ := hdp.right 0 (by omega)
    have hcut : l - 1 + 1 = l := by omega
    have hbest' : Best prices (l - l) rest := by rwa [Nat.sub_self]
    rw [hrest, getElem?_eq_priceOf (show l - 1 < prices.length by omega), hcut]
    simp only [Option.bind_eq_bind, Option.bind_some, add_comm rest,
      int_add hrange (show l ≤ prices.length by omega) hl (Nat.le_refl l) hbest']
    refine entry_best hrange hl (by omega) (hdp.set _)
      (List.getElem?_set_self (by rw [hdp.size]; omega)) ?_
    exact BestLed.first hl (Nat.le_refl l) hbest'
  · intro dp hdp
    exact hdp.right prices.length (by omega)

end BottomUp

/-! ## All versions -/

/-- All versions return the best total of the length. -/
def ReturnBest (prices : List ℤ) : Prop :=
  ∃ v, Best prices prices.length v ∧ BottomUp.cutRod prices = some v ∧
    ∀ depth > prices.length, Naive.cutRod prices depth prices.length = some v ∧
      TopDown.cutRod prices depth = some v

/-- The length is an `int`, or what is left of it is worth as much. -/
def LengthFits (prices : List ℤ) : Prop :=
  prices.length < 2 ^ 31 ∨
    ∃ v, Best prices prices.length v ∧ Best prices (TopDown.startLength prices) v

theorem cut_rod_iff (prices : List ℤ) (hrange : InRange prices) :
    ReturnBest prices ↔ LengthFits prices := by
  constructor
  · rintro ⟨v, hbest, -, hcalls⟩
    obtain ⟨w, hw, hstart⟩ := TopDown.cutRod_best hrange prices.length.lt_succ_self
    rw [(hcalls _ prices.length.lt_succ_self).2] at hw
    cases hw
    exact .inr ⟨v, hbest, hstart⟩
  · intro hfits
    have hsame : ∃ v, Best prices prices.length v ∧ Best prices (TopDown.startLength prices) v := by
      rcases hfits with hlen | hsame
      · obtain ⟨v, -, hbest⟩ := BottomUp.cutRod_best hrange
        rw [TopDown.startLength_eq hlen]
        exact ⟨v, hbest, hbest⟩
      · exact hsame
    obtain ⟨v, hbest, hstart⟩ := hsame
    obtain ⟨w, hw, hbest'⟩ := BottomUp.cutRod_best hrange
    rw [hbest'.unique hbest] at hw
    refine ⟨v, hbest, hw, fun depth hdepth => ⟨?_, ?_⟩⟩
    · obtain ⟨w, hw, hbest'⟩ := Naive.cutRod_best hrange depth (Nat.le_refl _) hdepth
      rw [hw, hbest'.unique hbest]
    · obtain ⟨w, hw, hstart'⟩ := TopDown.cutRod_best hrange hdepth
      rw [hw, hstart'.unique hstart]

/-! ## Bounded prices -/

variable {lo hi : ℤ}

theorem totals_bounds (hlo : lo ≤ 0) (hhi : 0 ≤ hi) (h : ∀ x ∈ prices, lo ≤ x ∧ x ≤ hi)
    (hv : v ∈ totals (priceOf prices) n) : n * lo ≤ v ∧ v ≤ n * hi := by
  obtain ⟨c, rfl⟩ := hv
  have hprice (p : ℕ) : lo ≤ priceOf prices p ∧ priceOf prices p ≤ hi := by
    unfold priceOf
    rw [List.getD_eq_getElem?_getD]
    cases hget : prices[p - 1]? with
    | none => exact ⟨hlo, hhi⟩
    | some x => exact h x (List.mem_of_getElem? hget)
  have hpieces (blocks : List ℕ) :
      blocks.length * lo ≤ (blocks.map (priceOf prices)).sum ∧
        (blocks.map (priceOf prices)).sum ≤ blocks.length * hi := by
    induction blocks with
    | nil => simp
    | cons p blocks ih =>
      rw [List.length_cons, List.map_cons, List.sum_cons, Nat.cast_succ, add_mul, add_mul, one_mul,
        one_mul]
      have hp := hprice p
      omega
  have hlength : (c.blocks.length : ℤ) ≤ n := by exact_mod_cast c.length_le
  obtain ⟨hle, hge⟩ := hpieces c.blocks
  exact ⟨(mul_le_mul_of_nonpos_right hlength hlo).trans hle,
    hge.trans (mul_le_mul_of_nonneg_right hlength hhi)⟩

theorem inRange_of_bounds (hlo : lo ≤ 0) (hhi : 0 ≤ hi) (h : ∀ x ∈ prices, lo ≤ x ∧ x ≤ hi)
    (hmin : -2 ^ 31 ≤ prices.length * lo) (hmax : prices.length * hi < 2 ^ 31) :
    InRange prices := by
  intro n hn v hv
  obtain ⟨hle, hge⟩ := totals_bounds hlo hhi h hv
  have hn : (n : ℤ) ≤ prices.length := by omega
  exact ⟨(hmin.trans (mul_le_mul_of_nonpos_right hn hlo)).trans hle,
    (hge.trans (mul_le_mul_of_nonneg_right hn hhi)).trans_lt hmax⟩

theorem cut_rod_iff_short : ReturnBest [1, -5, 8] ↔ LengthFits [1, -5, 8] :=
  cut_rod_iff [1, -5, 8] (inRange_of_bounds (show -5 ≤ 0 by decide) (show 0 ≤ 8 by decide)
    (by decide) (by decide) (by decide))

/-- A rod of length 2^31, all of whose pieces lose money. -/
theorem not_returnBest : InRange (List.replicate (2 ^ 31) (-1)) ∧
    ¬ ReturnBest (List.replicate (2 ^ 31) (-1)) := by
  have hprices : ∀ x ∈ List.replicate (2 ^ 31) (-1), (-1 : ℤ) ≤ x ∧ x ≤ 0 := by
    intro x hx
    rw [List.eq_of_mem_replicate hx]
    decide
  have hlen : (List.replicate (2 ^ 31) (-1 : ℤ)).length = 2 ^ 31 := List.length_replicate
  generalize hrod : List.replicate (2 ^ 31) (-1 : ℤ) = prices at hprices hlen ⊢
  have hrange : InRange prices :=
    inRange_of_bounds (by decide) (Int.le_refl 0) hprices (by rw [hlen]; decide) (by omega)
  refine ⟨hrange, ?_⟩
  rintro ⟨v, hbest, -, hcalls⟩
  have hstart : TopDown.startLength prices = 0 := by
    unfold TopDown.startLength
    rw [hlen]
    decide
  obtain ⟨w, hw, hzero⟩ := TopDown.cutRod_best hrange prices.length.lt_succ_self
  rw [(hcalls _ prices.length.lt_succ_self).2] at hw
  rw [hstart] at hzero
  cases hw
  have hv : v = 0 := hzero.unique (best_zero prices)
  subst hv
  -- the first piece costs 1, and no other one pays for it
  have hmem := hbest.1
  rw [totals_eq_led _ (by omega) (Set.Subset.refl _)] at hmem
  obtain ⟨p, -, ⟨hp, hle⟩, rest, hrest, hsum⟩ := hmem
  have hprice : priceOf prices p = -1 := by
    rw [priceOf, ← hrod]
    exact List.getD_replicate _ (by omega)
  have hrest := (totals_bounds (by decide) (Int.le_refl 0) hprices hrest).2
  omega

end InterviewQuestions.RodCutting

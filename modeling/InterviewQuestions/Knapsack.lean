import InterviewQuestions.Library.CountingLoop
import InterviewQuestions.Library.Packing
import Mathlib.Logic.Function.Basic

/-! The three versions of `recursion_dp/knapsack`. There is no result where an index is out of
range or a loop does not end. -/
namespace InterviewQuestions.Knapsack

open Library

/-! ## `solution.c` -/

namespace Recursive

def max (x y : UInt32) : UInt32 := if x > y then x else y

/-- The recursion on the number of items. -/
def knapsackAux (weights values : List UInt32) : ℕ → UInt32 → Option UInt32
  | 0, _ => some 0
  | items + 1, capacity => do
      let res ← knapsackAux weights values items capacity
      let weight ← weights[items]?
      if weight ≤ capacity then
        let value ← values[items]?
        let rest ← knapsackAux weights values items (capacity - weight)
        return max res (value + rest)
      else return res

def knapsack (weights values : List UInt32) (capacity items : UInt32) : Option UInt32 :=
  knapsackAux weights values items.toNat capacity

end Recursive

/-! ## `solution_dp_topdown.cpp` -/

namespace TopDown

/-- `dp[capacity][items]` -/
abbrev Memo := UInt32 × ℕ → Int32

/-- The result, and the table after the call. -/
def knapsackAux (values weights : List UInt32) : ℕ → UInt32 → Memo → Option (Int32 × Memo)
  | 0, _, dp => some (0, dp)
  | items + 1, capacity, dp =>
      if dp (capacity, items + 1) ≠ -1 then some (dp (capacity, items + 1), dp)
      else do
        let (res, dp) ← knapsackAux values weights items capacity dp
        let weight ← weights[items]?
        if weight ≤ capacity then
          let value ← values[items]?
          let (rest, dp) ← knapsackAux values weights items (capacity - weight) dp
          let res := (Max.max res.toUInt32 (value + rest.toUInt32)).toInt32
          return (res, Function.update dp (capacity, items + 1) res)
        else return (res, Function.update dp (capacity, items + 1) res)

def knapsack (values weights : List UInt32) (capacity : UInt32) : Option Int32 :=
  (knapsackAux values weights values.length capacity fun _ => -1).map Prod.fst

end TopDown

/-! ## `solution_dp_bottomup.cpp` -/

namespace BottomUp

/-- `dp[i][j]`. The rows go up to `values.size()`, and so does `i`. The row before the one with
the number 0 is the one of the largest `unsigned`. -/
abbrev Table := ℕ × UInt32 → UInt32

/-- The body of the two loops. -/
def entry (values weights : List UInt32) (i j : UInt32) (dp : Table) : Option Table := do
  let dp := Function.update dp (i.toNat, j) (dp ((i - 1).toNat, j))
  let weight ← weights[(i - 1).toNat]?
  if weight ≤ j then
    let value ← values[(i - 1).toNat]?
    let res := max (dp (i.toNat, j)) (dp ((i - 1).toNat, j - weight) + value)
    return Function.update dp (i.toNat, j) res
  else return dp

/-- The loops have `fuel` iterations at most. -/
def knapsack (fuel : ℕ) (values weights : List UInt32) (capacity : UInt32) : Option Int32 := do
  let dp ← forLoop capacity.toNat (fun j dp => some (Function.update dp (0, j) 0)) fuel 0 fun _ => 0
  let dp ← forLoop values.length
    (fun i dp => forLoop capacity.toNat (entry values weights i) fuel 0 dp) fuel 1 dp
  return (dp (values.length, capacity)).toInt32

end BottomUp

/-! All versions return the largest value that fits, but the last one does so only for fewer
items than the largest `unsigned`. -/

open Library Packing

variable {items : List (UInt32 × UInt32)} {weights values : List UInt32} {n : ℕ}
  {weight value capacity : UInt32}

/-- Weights and values as numbers. -/
def packed (items : List (UInt32 × UInt32)) : List (ℕ × ℕ) :=
  items.map fun item => (item.1.toNat, item.2.toNat)

/-- The optimum for the first `n` items. -/
def prefixBest (items : List (UInt32 × UInt32)) (n capacity : ℕ) : ℕ :=
  best ((packed items).take n).reverse capacity

def total (items : List (UInt32 × UInt32)) : ℕ := ((packed items).map Prod.snd).sum

theorem prefixBest_zero (items : List (UInt32 × UInt32)) (capacity : ℕ) :
    prefixBest items 0 capacity = 0 := rfl

theorem prefixBest_succ (h : items[n]? = some (weight, value)) (capacity : ℕ) :
    prefixBest items (n + 1) capacity =
      if weight.toNat ≤ capacity then max (prefixBest items n capacity)
        (value.toNat + prefixBest items n (capacity - weight.toNat))
      else prefixBest items n capacity := by
  have hitem : (packed items)[n]? = some (weight.toNat, value.toNat) := by
    rw [packed, List.getElem?_map, h]
    rfl
  rw [prefixBest, List.take_add_one, hitem]
  simp only [Option.toList_some, List.reverse_append, List.reverse_singleton, List.singleton_append]
  rfl

theorem exists_item (hn : n < items.length) : ∃ weight value, items[n]? = some (weight, value) ∧
    (items.map Prod.fst)[n]? = some weight ∧ (items.map Prod.snd)[n]? = some value := by
  obtain ⟨⟨weight, value⟩, hitem⟩ : ∃ item, items[n]? = some item :=
    ⟨items[n], List.getElem?_eq_getElem hn⟩
  refine ⟨weight, value, hitem, ?_, ?_⟩
  · rw [List.getElem?_map, hitem]
    rfl
  · rw [List.getElem?_map, hitem]
    rfl

theorem prefixBest_le (items : List (UInt32 × UInt32)) (n capacity : ℕ) :
    prefixBest items n capacity ≤ total items := by
  refine (best_le_sum _ _).trans ?_
  rw [List.map_reverse, List.sum_reverse]
  exact ((List.take_sublist n (packed items)).map Prod.snd).sum_le_sum fun _ _ => Nat.zero_le _

theorem prefixBest_isGreatest (items : List (UInt32 × UInt32)) (capacity : ℕ) :
    IsGreatest (loads (packed items) capacity) (prefixBest items items.length capacity) := by
  have hall : (packed items).take items.length = packed items := by
    rw [packed, ← List.length_map (f := fun item : UInt32 × UInt32 => (item.1.toNat, item.2.toNat)),
      List.take_length]
  rw [prefixBest, hall, ← loads_reverse]
  exact best_isGreatest _ _

/-- An item that fits does not make the sum of values too large. -/
theorem toNat_add_prefixBest (htotal : total items < 2 ^ 31)
    (h : items[n]? = some (weight, value)) (hle : weight.toNat ≤ capacity.toNat) :
    value.toNat + prefixBest items n (capacity.toNat - weight.toNat) < 2 ^ 31 := by
  have hbound := prefixBest_le items (n + 1) capacity.toNat
  rw [prefixBest_succ h, if_pos hle] at hbound
  have hmax := Nat.le_max_right (prefixBest items n capacity.toNat)
    (value.toNat + prefixBest items n (capacity.toNat - weight.toNat))
  omega

theorem toNat_add {x y : UInt32} (h : x.toNat + y.toNat < 2 ^ 31) :
    (x + y).toNat = x.toNat + y.toNat := by
  rw [UInt32.toNat_add, Nat.mod_eq_of_lt (by omega)]

theorem toNat_max (x y : UInt32) : (max x y).toNat = max x.toNat y.toNat := by
  change (if x ≤ y then y else x).toNat = _
  by_cases hle : x ≤ y
  · rw [if_pos hle, max_eq_right (UInt32.le_iff_toNat_le.mp hle)]
  · have hnat : ¬ x.toNat ≤ y.toNat := mt UInt32.le_iff_toNat_le.mpr hle
    rw [if_neg hle, max_eq_left (by omega)]

theorem toInt_toInt32 {x : UInt32} (h : x.toNat < 2 ^ 31) : x.toInt32.toInt = x.toNat := by
  change x.toBitVec.toInt = _
  rw [BitVec.toInt_eq_toNat_of_lt]
  · rfl
  · change 2 * x.toNat < 2 ^ 32
    omega

theorem toNat_toUInt32 {x : Int32} {n : ℕ} (h : x.toInt = n) : x.toUInt32.toNat = n := by
  have hle : 0 ≤ x := by
    rw [Int32.le_iff_toInt_le, h]
    exact Int.natCast_nonneg n
  rw [Int32.toNat_toUInt32_of_le hle, ← Int32.toNat_toInt, h, Int.toNat_natCast]

/-! ## The recursion -/

namespace Recursive

theorem max_toNat (x y : UInt32) : (max x y).toNat = Max.max x.toNat y.toNat := by
  unfold max
  by_cases hlt : x > y
  · have hnat := UInt32.lt_iff_toNat_lt.mp hlt
    rw [if_pos hlt, max_eq_left (by omega)]
  · have hnat : ¬ y.toNat < x.toNat := mt UInt32.lt_iff_toNat_lt.mpr hlt
    rw [if_neg hlt, max_eq_right (by omega)]

theorem knapsackAux_spec (htotal : total items < 2 ^ 31) (hn : n ≤ items.length)
    (capacity : UInt32) :
    ∃ res, knapsackAux (items.map Prod.fst) (items.map Prod.snd) n capacity = some res ∧
      res.toNat = prefixBest items n capacity.toNat := by
  induction n generalizing capacity with
  | zero => exact ⟨0, rfl, rfl⟩
  | succ n ih =>
    obtain ⟨weight, value, hitem, hweight, hworth⟩ := exists_item hn
    obtain ⟨res, hres, hvalue⟩ := ih (Nat.le_of_succ_le hn) capacity
    rw [knapsackAux, hres, hweight, prefixBest_succ hitem]
    simp only [Option.bind_eq_bind, Option.bind_some]
    by_cases hle : weight ≤ capacity
    · have hnat := UInt32.le_iff_toNat_le.mp hle
      obtain ⟨rest, hrest, hbest⟩ := ih (Nat.le_of_succ_le hn) (capacity - weight)
      rw [UInt32.toNat_sub_of_le _ _ hle] at hbest
      have hsmall := toNat_add_prefixBest htotal hitem hnat
      rw [← hbest] at hsmall
      rw [if_pos hle, if_pos hnat, hworth, hrest]
      refine ⟨_, rfl, ?_⟩
      rw [max_toNat, toNat_add hsmall, hvalue, hbest]
    · have hnat : ¬ weight.toNat ≤ capacity.toNat := mt UInt32.le_iff_toNat_le.mpr hle
      rw [if_neg hle, if_neg hnat]
      exact ⟨res, rfl, hvalue⟩

end Recursive

/-! ## The memo table -/

namespace TopDown

/-- The entries other than -1 are right. -/
def Sound (items : List (UInt32 × UInt32)) (dp : Memo) : Prop :=
  ∀ capacity n, n ≤ items.length → dp (capacity, n) ≠ -1 →
    (dp (capacity, n)).toInt = prefixBest items n capacity.toNat

theorem Sound.update {dp : Memo} (h : Sound items dp) {res : Int32}
    (hres : res.toInt = prefixBest items n capacity.toNat) :
    Sound items (Function.update dp (capacity, n) res) := by
  intro capacity' n' hn' hset
  by_cases heq : (capacity', n') = (capacity, n)
  · cases heq
    rwa [Function.update_self]
  · rw [Function.update_of_ne heq] at hset ⊢
    exact h capacity' n' hn' hset

theorem knapsackAux_spec (htotal : total items < 2 ^ 31) (hn : n ≤ items.length)
    (capacity : UInt32) {dp : Memo} (hdp : Sound items dp) :
    ∃ res dp', knapsackAux (items.map Prod.snd) (items.map Prod.fst) n capacity dp =
      some (res, dp') ∧ res.toInt = prefixBest items n capacity.toNat ∧ Sound items dp' := by
  induction n generalizing capacity dp with
  | zero => exact ⟨0, dp, rfl, rfl, hdp⟩
  | succ n ih =>
    rw [knapsackAux]
    by_cases hset : dp (capacity, n + 1) ≠ -1
    · rw [if_pos hset]
      exact ⟨_, dp, rfl, hdp capacity (n + 1) hn hset, hdp⟩
    · obtain ⟨weight, value, hitem, hweight, hworth⟩ := exists_item hn
      obtain ⟨res, dp', hres, hvalue, hdp'⟩ := ih (Nat.le_of_succ_le hn) capacity hdp
      have hsucc := prefixBest_succ hitem capacity.toNat
      rw [if_neg hset, hres, hweight]
      simp only [Option.bind_eq_bind, Option.bind_some]
      by_cases hle : weight ≤ capacity
      · have hnat := UInt32.le_iff_toNat_le.mp hle
        obtain ⟨rest, dp'', hrest, hbest, hdp''⟩ :=
          ih (Nat.le_of_succ_le hn) (capacity - weight) hdp'
        rw [UInt32.toNat_sub_of_le _ _ hle] at hbest
        have hsmall := toNat_add_prefixBest htotal hitem hnat
        rw [← toNat_toUInt32 hbest] at hsmall
        have hmax : (max res.toUInt32 (value + rest.toUInt32)).toNat =
            prefixBest items (n + 1) capacity.toNat := by
          rw [toNat_max, toNat_add hsmall, toNat_toUInt32 hvalue, toNat_toUInt32 hbest, hsucc,
            if_pos hnat]
        have hint : (max res.toUInt32 (value + rest.toUInt32)).toInt32.toInt =
            prefixBest items (n + 1) capacity.toNat := by
          have hbound := prefixBest_le items (n + 1) capacity.toNat
          rw [toInt_toInt32 (by omega), hmax]
        rw [if_pos hle, hworth, hrest]
        exact ⟨_, _, rfl, hint, hdp''.update hint⟩
      · have hnat : ¬ weight.toNat ≤ capacity.toNat := mt UInt32.le_iff_toNat_le.mpr hle
        rw [if_neg hnat, ← Int.natCast_inj, ← hvalue] at hsucc
        rw [if_neg hle]
        exact ⟨res, _, rfl, hsucc.symm, hdp'.update hsucc.symm⟩

end TopDown

/-! ## The full table -/

namespace BottomUp

/-- The entry is right. -/
def Right (items : List (UInt32 × UInt32)) (dp : Table) (row : ℕ) (j : UInt32) : Prop :=
  (dp (row, j)).toNat = prefixBest items row j.toNat

/-- The rows before the one with the number `i` are right. -/
def Rows (items : List (UInt32 × UInt32)) (capacity : UInt32) (i : ℕ) (dp : Table) : Prop :=
  ∀ row < i, ∀ j ≤ capacity, Right items dp row j

/-- And so are the first entries of the row `i`. -/
structure Columns (items : List (UInt32 × UInt32)) (capacity : UInt32) (i count : ℕ)
    (dp : Table) : Prop where
  rows : Rows items capacity i dp
  columns : ∀ j ≤ capacity, j.toNat < count → Right items dp i j

theorem Columns.rows_succ {i : ℕ} {dp : Table}
    (h : Columns items capacity i (capacity.toNat + 1) dp) : Rows items capacity (i + 1) dp := by
  intro row hrow j hj
  by_cases heq : row = i
  · rw [heq]
    exact h.columns j hj (Nat.lt_succ_of_le (UInt32.le_iff_toNat_le.mp hj))
  · exact h.rows row (by omega) j hj

theorem Columns.update {i : ℕ} {dp dp' : Table} {j : UInt32}
    (h : Columns items capacity i j.toNat dp) (hright : Right items dp' i j)
    (hsame : ∀ p, p ≠ (i, j) → dp' p = dp p) : Columns items capacity i (j.toNat + 1) dp' := by
  constructor
  · intro row hrow j' hj'
    have hne : (row, j') ≠ (i, j) := fun heq => by
      cases heq
      exact Nat.lt_irrefl _ hrow
    rw [Right, hsame _ hne]
    exact h.rows row hrow j' hj'
  · intro j' hj' hlt
    by_cases heq : j' = j
    · rwa [heq]
    · have hne : (i, j') ≠ (i, j) := fun hpair => heq (Prod.mk.inj hpair).2
      have hnat : j'.toNat ≠ j.toNat := fun hnat => heq (UInt32.toNat_inj.mp hnat)
      rw [Right, hsame _ hne]
      exact h.columns j' hj' (by omega)

theorem entry_spec (htotal : total items < 2 ^ 31) {i j : UInt32} (hi : i.toNat = n + 1)
    (hn : n < items.length) {dp : Table} (hrows : Rows items capacity (n + 1) dp)
    (hj : j ≤ capacity) : ∃ dp', entry (items.map Prod.snd) (items.map Prod.fst) i j dp = some dp' ∧
      Right items dp' (n + 1) j ∧ ∀ p, p ≠ (n + 1, j) → dp' p = dp p := by
  obtain ⟨weight, value, hitem, hweight, hworth⟩ := exists_item hn
  have hpred : (i - 1).toNat = n := by
    have hone : (1 : UInt32) ≤ i := by
      rw [UInt32.le_iff_toNat_le, hi]
      exact Nat.succ_le_succ (Nat.zero_le n)
    rw [UInt32.toNat_sub_of_le _ _ hone, hi]
    rfl
  have habove : ∀ j', ((n, j') : ℕ × UInt32) ≠ (n + 1, j) := fun j' heq => by cases heq
  have hwithout := hrows n (Nat.lt_succ_self n) j hj
  rw [entry, hpred, hi, hweight]
  simp only [Option.bind_eq_bind, Option.bind_some]
  by_cases hle : weight ≤ j
  · have hnat := UInt32.le_iff_toNat_le.mp hle
    have hless : j - weight ≤ capacity := by
      rw [UInt32.le_iff_toNat_le, UInt32.toNat_sub_of_le _ _ hle]
      exact (Nat.sub_le _ _).trans (UInt32.le_iff_toNat_le.mp hj)
    have hwith := hrows n (Nat.lt_succ_self n) (j - weight) hless
    rw [Right, UInt32.toNat_sub_of_le _ _ hle] at hwith
    have hsmall := toNat_add_prefixBest htotal hitem hnat
    rw [← hwith, Nat.add_comm] at hsmall
    rw [if_pos hle, hworth, Option.bind_some]
    refine ⟨_, rfl, ?_, fun p hp => ?_⟩
    · rw [Right, Function.update_self, Function.update_self, Function.update_of_ne (habove _),
        toNat_max, toNat_add hsmall, hwithout, hwith, prefixBest_succ hitem, if_pos hnat,
        Nat.add_comm]
    · rw [Function.update_of_ne hp, Function.update_of_ne hp]
  · have hnat : ¬ weight.toNat ≤ j.toNat := mt UInt32.le_iff_toNat_le.mpr hle
    rw [if_neg hle]
    refine ⟨_, rfl, ?_, fun p hp => Function.update_of_ne hp _ _⟩
    rw [Right, Function.update_self, hwithout, prefixBest_succ hitem, if_neg hnat]

/-- One row. -/
theorem row_spec (htotal : total items < 2 ^ 31) (hcapacity : capacity.toNat + 1 < 2 ^ 32)
    {i : UInt32} (hi : i.toNat = n + 1) (hn : n < items.length) {fuel : ℕ}
    (hfuel : capacity.toNat + 1 < fuel) {dp : Table} (hrows : Rows items capacity (n + 1) dp) :
    ∃ dp', forLoop capacity.toNat (entry (items.map Prod.snd) (items.map Prod.fst) i) fuel 0 dp =
      some dp' ∧ Rows items capacity (n + 2) dp' := by
  have hstart : Columns items capacity (n + 1) 0 dp := ⟨hrows, fun j _ hj => absurd hj (by omega)⟩
  have hbody : ∀ (j : UInt32) dp, j.toNat ≤ capacity.toNat →
      Columns items capacity (n + 1) j.toNat dp → ∃ dp',
        entry (items.map Prod.snd) (items.map Prod.fst) i j dp = some dp' ∧
          Columns items capacity (n + 1) (j.toNat + 1) dp' := by
    intro j dp hj hcolumns
    have hle : j ≤ capacity := UInt32.le_iff_toNat_le.mpr hj
    obtain ⟨dp', hentry, hright, hsame⟩ := entry_spec htotal hi hn hcolumns.rows hle
    exact ⟨dp', hentry, hcolumns.update hright hsame⟩
  obtain ⟨dp', hloop, hend⟩ :=
    forLoop_spec (Columns items capacity (n + 1)) hcapacity hbody fuel 0 dp (Nat.zero_le _) hfuel
      hstart
  exact ⟨dp', hloop, hend.rows_succ⟩

theorem first_row (items : List (UInt32 × UInt32)) {fuel : ℕ}
    (hcapacity : capacity.toNat + 1 < 2 ^ 32) (hfuel : capacity.toNat + 1 < fuel) :
    ∃ dp, forLoop capacity.toNat
      (fun j dp => some (Function.update dp ((0, j) : ℕ × UInt32) (0 : UInt32))) fuel 0
        (fun _ => 0) = some dp ∧ Rows items capacity 1 dp := by
  have hstart : Columns items capacity 0 0 fun _ => 0 :=
    ⟨fun row hrow => absurd hrow (Nat.not_lt_zero row), fun j _ hj => absurd hj (by omega)⟩
  have hbody : ∀ (j : UInt32) dp, j.toNat ≤ capacity.toNat →
      Columns items capacity 0 j.toNat dp → ∃ dp', some (Function.update dp (0, j) 0) = some dp' ∧
        Columns items capacity 0 (j.toNat + 1) dp' := by
    intro j dp _ hcolumns
    have hzero : Right items (Function.update dp (0, j) 0) 0 j := by
      rw [Right, Function.update_self, prefixBest_zero]
      rfl
    exact ⟨_, rfl, hcolumns.update hzero fun p hp => Function.update_of_ne hp _ _⟩
  obtain ⟨dp, hloop, hend⟩ := forLoop_spec (Columns items capacity 0) hcapacity hbody fuel 0 _
    (Nat.zero_le _) hfuel hstart
  exact ⟨dp, hloop, hend.rows_succ⟩

theorem knapsack_spec (htotal : total items < 2 ^ 31) (hcapacity : capacity.toNat + 1 < 2 ^ 32)
    (hlength : items.length < 2 ^ 32 - 1) : ∃ fuel res,
      knapsack fuel (items.map Prod.snd) (items.map Prod.fst) capacity = some res ∧
        res.toInt = prefixBest items items.length capacity.toNat := by
  obtain ⟨fuel, hfuel⟩ : ∃ fuel, capacity.toNat + items.length + 1 < fuel := ⟨_, Nat.lt_succ_self _⟩
  obtain ⟨dp, hfirst, hrow⟩ := first_row items hcapacity (show _ < fuel by omega)
  let row (i : UInt32) (dp : Table) : Option Table :=
    forLoop capacity.toNat (entry (items.map Prod.snd) (items.map Prod.fst) i) fuel 0 dp
  have hbody : ∀ (i : UInt32) dp, i.toNat ≤ items.length →
      1 ≤ i.toNat ∧ Rows items capacity i.toNat dp →
        ∃ dp', row i dp = some dp' ∧ 1 ≤ i.toNat + 1 ∧ Rows items capacity (i.toNat + 1) dp' := by
    intro i dp hi hinv
    obtain ⟨hone, hrows⟩ := hinv
    obtain ⟨n, hn⟩ : ∃ n, i.toNat = n + 1 := ⟨i.toNat - 1, by omega⟩
    rw [hn] at hrows ⊢
    obtain ⟨dp', hrow, hnext⟩ := row_spec htotal hcapacity hn (by omega)
      (show _ < fuel by omega) hrows
    exact ⟨dp', hrow, by omega, hnext⟩
  have hone : (1 : UInt32).toNat = 1 := rfl
  obtain ⟨dp', hloop, _, hrows⟩ := forLoop_spec
    (fun i dp => 1 ≤ i ∧ Rows items capacity i dp) (by omega) hbody fuel 1 dp (by omega) (by omega)
    ⟨Nat.le_refl 1, hrow⟩
  have hright := hrows items.length (Nat.lt_succ_self _) capacity (UInt32.le_refl capacity)
  have hbound := prefixBest_le items items.length capacity.toNat
  have hsmall : (dp' (items.length, capacity)).toNat < 2 ^ 31 := by
    rw [hright]
    omega
  refine ⟨fuel, (dp' (items.length, capacity)).toInt32, ?_, ?_⟩
  · rw [knapsack, hfirst, List.length_map]
    simp only [Option.bind_eq_bind, Option.bind_some]
    rw [hloop]
    rfl
  · rw [toInt_toInt32 hsmall, hright]

/-- With too many items the loop over them does not end. -/
theorem knapsack_eq_none (weights : List UInt32) (capacity : UInt32)
    (hlength : 2 ^ 32 - 1 ≤ values.length) (fuel : ℕ) :
    knapsack fuel values weights capacity = none := by
  rw [knapsack]
  simp only [forLoop_eq_none hlength]
  cases forLoop capacity.toNat _ fuel 0 _ <;> rfl

end BottomUp

/-! ## All three -/

/-- All versions return the largest value of items whose weight the capacity allows. -/
def ReturnBest (items : List (UInt32 × UInt32)) (capacity : UInt32) : Prop :=
  ∃ best : ℕ, IsGreatest (loads (packed items) capacity.toNat) best ∧
    (∃ res, Recursive.knapsack (items.map Prod.fst) (items.map Prod.snd) capacity
      (UInt32.ofNat items.length) = some res ∧ res.toNat = best) ∧
    (∃ res, TopDown.knapsack (items.map Prod.snd) (items.map Prod.fst) capacity = some res ∧
      res.toInt = best) ∧
    ∃ fuel res, BottomUp.knapsack fuel (items.map Prod.snd) (items.map Prod.fst) capacity =
      some res ∧ res.toInt = best

/-- The loop of the last version needs a counter beyond the number of items. -/
theorem knapsack_iff (items : List (UInt32 × UInt32)) (capacity : UInt32)
    (htotal : total items < 2 ^ 31) (hcapacity : capacity.toNat < 2 ^ 32 - 1) :
    ReturnBest items capacity ↔ items.length < 2 ^ 32 - 1 := by
  constructor
  · rintro ⟨_, _, _, _, fuel, res, hres, _⟩
    by_contra hlength
    have hmany : 2 ^ 32 - 1 ≤ (items.map Prod.snd).length := by
      rw [List.length_map]
      omega
    rw [BottomUp.knapsack_eq_none _ capacity hmany fuel] at hres
    cases hres
  · intro hlength
    have hcount : (UInt32.ofNat items.length).toNat = items.length :=
      UInt32.toNat_ofNat_of_lt' (by change _ < 2 ^ 32; omega)
    obtain ⟨res, hres, hvalue⟩ := Recursive.knapsackAux_spec htotal (Nat.le_refl _) capacity
    have hunset : TopDown.Sound items fun _ => -1 := fun _ _ _ hset => absurd rfl hset
    obtain ⟨top, dp, htop, htopvalue, _⟩ :=
      TopDown.knapsackAux_spec htotal (Nat.le_refl _) capacity hunset
    refine ⟨_, prefixBest_isGreatest items capacity.toNat, ⟨res, ?_, hvalue⟩, ⟨top, ?_, htopvalue⟩,
      BottomUp.knapsack_spec htotal (by omega) hlength⟩
    · rw [Recursive.knapsack, hcount, hres]
    · rw [TopDown.knapsack, List.length_map, htop]
      rfl

theorem knapsack_iff_sample :
    ReturnBest [(5, 60), (3, 50), (4, 70), (2, 30)] 5 ↔ 4 < 2 ^ 32 - 1 :=
  knapsack_iff _ _ (by decide) (by decide)

/-- As many items as the largest `unsigned`, without weight and value. -/
theorem knapsack_does_not_return : ¬ ∀ (items : List (UInt32 × UInt32)) (capacity : UInt32),
    total items < 2 ^ 31 → capacity.toNat < 2 ^ 32 - 1 → ReturnBest items capacity := by
  intro h
  have htotal : ∀ n, total (List.replicate n (0, 0)) = 0 := fun n => by
    simp [total, packed, List.sum_replicate]
  obtain ⟨_, _, _, _, fuel, res, hres, _⟩ :=
    h (List.replicate (2 ^ 32 - 1) (0, 0)) 0 (by rw [htotal]; decide) (by decide)
  have hmany : 2 ^ 32 - 1 ≤
      ((List.replicate (2 ^ 32 - 1) ((0, 0) : UInt32 × UInt32)).map Prod.snd).length := by
    rw [List.length_map, List.length_replicate]
  rw [BottomUp.knapsack_eq_none _ 0 hmany fuel] at hres
  cases hres

end InterviewQuestions.Knapsack

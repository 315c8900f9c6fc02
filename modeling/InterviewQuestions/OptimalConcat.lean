import InterviewQuestions.Library.CountingLoop
import InterviewQuestions.Library.Merging
import InterviewQuestions.Library.Rearrangement
import Mathlib.Algebra.GroupWithZero.Nat
import Mathlib.Order.Bounds.Basic

/-! `recursion_dp/optimal_concat/solution.c`. The results come with the array as the calls leave it,
and there is none where an index is out of range. -/
namespace InterviewQuestions.OptimalConcat

open Library

/-- The recursion is at most `depth` calls deep. -/
def optimalMergeAux (strsSz : ℕ) :
    ℕ → UInt64 → UInt64 → List (List UInt8) → ℕ → Option (UInt32 × List (List UInt8))
  | 0, _, _, _, _ => none
  | depth + 1, currCost, currLen, strs, currI =>
      if currI = strsSz then some (currCost.toUInt32, strs)
      else do
        let (res, strs) ← (List.range' currI (strsSz - currI)).foldlM (fun (res, strs) i => do
          let strs ← swap strs i currI
          let str ← strs[currI]?
          let costI := UInt64.ofNat str.length + currLen
          let (costTmp, strs) ←
            optimalMergeAux strsSz depth (currCost + costI) costI strs (currI + 1)
          let res := if costTmp.toUInt64 < res then costTmp.toUInt64 else res
          let strs ← swap strs i currI
          return (res, strs)) ((18446744073709551615 : UInt64), strs)
        return (res.toUInt32, strs)

def optimalMerge (strs : List (List UInt8)) (strsSz : ℕ) :
    Option (UInt32 × List (List UInt8)) :=
  (List.range strsSz).foldlM (fun (res, strs) i => do
    let strs ← swap strs 0 i
    let str ← strs[0]?
    let (resTmp, strs) ← optimalMergeAux strsSz strsSz 0 (UInt64.ofNat str.length) strs 1
    let res := if resTmp < res then resTmp else res
    let strs ← swap strs 0 i
    return (res, strs)) ((4294967295 : UInt32), strs)

/-! The calls try all orders in which the strings can be appended to the first of them. -/

/-- What it costs to append the strings, one after another, to `len` characters. -/
def appendCost : ℕ → List (List UInt8) → ℕ
  | _, [] => 0
  | len, str :: strs => str.length + len + appendCost (str.length + len) strs

def orderCost : List (List UInt8) → ℕ
  | [] => 0
  | str :: strs => appendCost str.length strs

/-! ## The loops -/

section Loop

variable {S α : Type*} {rest others : List S} {str : S} {cost : List S → ℕ} {i j bound n r v : ℕ}

/-- The costs of the orders of `rest` that begin with `str`. -/
def Beginning (cost : List S → ℕ) (rest : List S) (str : S) : Set ℕ :=
  {n | ∃ order, (str :: order).Perm rest ∧ cost (str :: order) = n}

theorem beginning_eq (cost : List S → ℕ) (hperm : (str :: others).Perm rest) :
    Beginning cost rest str = {n | ∃ order, order.Perm others ∧ cost (str :: order) = n} := by
  ext n
  refine exists_congr fun order => and_congr_left fun _ => ?_
  constructor
  · intro h
    exact (List.perm_cons str).mp (h.trans hperm.symm)
  · intro h
    exact (h.cons str).trans hperm

/-- `r` is the least cost of the orders that begin with one of the first `j` strings. -/
structure Tried (cost : List S → ℕ) (bound : ℕ) (rest : List S) (j r : ℕ) : Prop where
  le_bound : r ≤ bound
  lower : ∀ i < j, ∀ str, rest[i]? = some str → ∀ n ∈ Beginning cost rest str, r ≤ n
  attained : r = bound ∨ ∃ str ∈ rest, r ∈ Beginning cost rest str

theorem tried_zero (cost : List S → ℕ) (bound : ℕ) (rest : List S) :
    Tried cost bound rest 0 bound :=
  ⟨le_rfl, fun _ hi => absurd hi (Nat.not_lt_zero _), .inl rfl⟩

theorem Tried.step (h : Tried cost bound rest j r) (hj : rest[j]? = some str)
    (hv : IsLeast (Beginning cost rest str) v) :
    Tried cost bound rest (j + 1) (if v < r then v else r) := by
  refine ⟨?_, fun i hi str' hstr n hn => ?_, ?_⟩
  · have := h.le_bound
    split <;> omega
  · rcases Nat.lt_succ_iff_lt_or_eq.mp hi with hlt | rfl
    · have := h.lower i hlt str' hstr n hn
      split <;> omega
    · cases hj.symm.trans hstr
      have := hv.2 hn
      split <;> omega
  · split
    · exact .inr ⟨str, List.mem_of_getElem? hj, hv.1⟩
    · exact h.attained

theorem Tried.isLeast (h : Tried cost bound rest rest.length r) (hrest : rest ≠ [])
    (hbound : ∀ order, cost order ≤ bound) :
    IsLeast {n | ∃ order, order.Perm rest ∧ cost order = n} r := by
  have hlower : ∀ order, order.Perm rest → r ≤ cost order := by
    intro order hperm
    cases order with
    | nil => exact absurd hperm.nil_eq.symm hrest
    | cons str order =>
      obtain ⟨i, hi⟩ := List.mem_iff_getElem?.mp (hperm.subset List.mem_cons_self)
      exact h.lower i (List.getElem?_eq_some_iff.mp hi).1 str hi _ ⟨order, hperm, rfl⟩
  refine ⟨?_, ?_⟩
  · rcases h.attained with rfl | ⟨str, -, order, hperm, hcost⟩
    · exact ⟨rest, .refl rest, le_antisymm (hbound rest) (hlower rest (.refl rest))⟩
    · exact ⟨str :: order, hperm, hcost⟩
  · rintro _ ⟨order, hperm, rfl⟩
    exact hlower order hperm

/-- A loop that tries each string as the first one and leaves the array as it was. -/
theorem tried_loop {start : ℕ} {arr : List S} {toNat : α → ℕ} {init : α}
    {body : α × List S → ℕ → Option (α × List S)} (hrest : rest ≠ [])
    (hbound : ∀ order, cost order ≤ bound) (hinit : toNat init = bound)
    (hbody : ∀ j str res, rest[j]? = some str → ∃ v s, body (res, arr) (start + j) = some s ∧
      s.2 = arr ∧ toNat s.1 = (if v < toNat res then v else toNat res) ∧
        IsLeast (Beginning cost rest str) v) :
    ∃ s, (List.range' start rest.length).foldlM body (init, arr) = some s ∧ s.2 = arr ∧
      IsLeast {n | ∃ order, order.Perm rest ∧ cost order = n} (toNat s.1) := by
  have hstart : Tried cost bound rest 0 (toNat init) := by
    rw [hinit]
    exact tried_zero cost bound rest
  have hstep (j str res) (hj : rest[j]? = some str) (htried : Tried cost bound rest j (toNat res)) :
      ∃ s, body (res, arr) (start + j) = some s ∧ s.2 = arr ∧
        Tried cost bound rest (j + 1) (toNat s.1) := by
    obtain ⟨v, s, hs, hstrs, hmin, hv⟩ := hbody j str res hj
    exact ⟨s, hs, hstrs, hmin ▸ htried.step hj hv⟩
  obtain ⟨s, hrun, harr, htried⟩ :=
    foldlM_entries_spec (fun j res => Tried cost bound rest j (toNat res)) hstep hstart
  exact ⟨s, hrun, harr, htried.isLeast hrest hbound⟩

end Loop

/-! ## The calls -/

variable {front rest : List (List UInt8)} {c l depth : ℕ}

theorem toNat_toUInt32_ofNat (c : ℕ) : (UInt64.ofNat c).toUInt32.toNat = c % 2 ^ 32 := by
  rw [UInt64.toNat_toUInt32, UInt64.toNat_ofNat']
  exact Nat.mod_mod_of_dvd c (by decide)

/-- The iteration for the string at `j`, where the call for the others is known. -/
theorem optimalMergeAux_iteration {N j : ℕ} {str : List UInt8} (hj : rest[j]? = some str)
    (hcall : ∀ others, (str :: others).Perm rest → ∃ s, optimalMergeAux N depth
        (UInt64.ofNat (c + (str.length + l))) (UInt64.ofNat (str.length + l))
        (front ++ str :: others) (front.length + 1) = some s ∧ s.2 = front ++ str :: others ∧
      IsLeast {n | ∃ order, order.Perm others ∧
        (c + (str.length + l) + appendCost (str.length + l) order) % 2 ^ 32 = n} s.1.toNat)
    (res : UInt64) :
    ∃ v s, ((swap (front ++ rest) (front.length + j) front.length).bind fun strs =>
        strs[front.length]?.bind fun str =>
          (optimalMergeAux N depth (UInt64.ofNat c + (UInt64.ofNat str.length + UInt64.ofNat l))
            (UInt64.ofNat str.length + UInt64.ofNat l) strs (front.length + 1)).bind fun s =>
              (swap s.2 (front.length + j) front.length).bind fun strs =>
                some (if s.1.toUInt64 < res then s.1.toUInt64 else res, strs)) = some s ∧
      s.2 = front ++ rest ∧ s.1.toNat = (if v < res.toNat then v else res.toNat) ∧
      IsLeast (Beginning (fun order => (c + appendCost l order) % 2 ^ 32) rest str) v := by
  obtain ⟨others, hthere, hback, hperm⟩ := swap_append_front front hj
  rw [swap_comm] at hthere hback
  obtain ⟨⟨costTmp, strs⟩, hcall, rfl, hleast⟩ := hcall others hperm
  refine ⟨costTmp.toNat, (if costTmp.toUInt64 < res then costTmp.toUInt64 else res, front ++ rest),
    ?_, rfl, ?_, ?_⟩
  · simp only [hthere, Option.bind_some, getElem?_append_cons]
    rw [← UInt64.ofNat_add, ← UInt64.ofNat_add, hcall]
    simp only [Option.bind_some, hback]
  · simp only [UInt64.lt_iff_toNat_lt, UInt32.toNat_toUInt64]
    split
    · exact UInt32.toNat_toUInt64 costTmp
    · rfl
  · rw [beginning_eq _ hperm]
    simpa only [appendCost, Nat.add_assoc] using hleast

/-- The cost is kept modulo `2 ^ 32`. -/
theorem optimalMergeAux_least (hdepth : rest.length < depth) :
    ∃ s, optimalMergeAux (front ++ rest).length depth (UInt64.ofNat c) (UInt64.ofNat l)
        (front ++ rest) front.length = some s ∧ s.2 = front ++ rest ∧
      IsLeast {n | ∃ order, order.Perm rest ∧ (c + appendCost l order) % 2 ^ 32 = n}
        s.1.toNat := by
  induction depth generalizing front rest c l with
  | zero => cases hdepth
  | succ depth ih =>
    rw [optimalMergeAux]
    by_cases hrest : rest = []
    · subst hrest
      rw [List.append_nil, if_pos rfl]
      refine ⟨_, rfl, rfl, ⟨[], .refl [], (toNat_toUInt32_ofNat c).symm⟩, ?_⟩
      rintro _ ⟨order, hperm, rfl⟩
      rw [hperm.eq_nil]
      exact (toNat_toUInt32_ofNat c).le
    · have hlen : (front ++ rest).length = front.length + rest.length := List.length_append
      have hpos := List.length_pos_of_ne_nil hrest
      have hbound (order) : (c + appendCost l order) % 2 ^ 32 ≤ 2 ^ 64 - 1 := by
        have := Nat.mod_lt (c + appendCost l order) (by decide : 0 < 2 ^ 32)
        omega
      have hcount : (front ++ rest).length - front.length = rest.length := by omega
      rw [if_neg (by omega), hcount]
      apply bind_spec fun s : UInt64 × List (List UInt8) => s.2 = front ++ rest ∧
        IsLeast {n | ∃ order, order.Perm rest ∧ (c + appendCost l order) % 2 ^ 32 = n} s.1.toNat
      · refine tried_loop hrest hbound (rfl : UInt64.toNat _ = 2 ^ 64 - 1) fun j str res hj => ?_
        refine optimalMergeAux_iteration hj (fun others hperm => ?_) res
        have hnext : front ++ str :: others = (front ++ [str]) ++ others := by simp
        have hlength : (front ++ rest).length = ((front ++ [str]) ++ others).length := by
          simp [← hperm.length_eq]
        have hothers : others.length < depth := by
          have := hperm.length_eq
          rw [List.length_cons] at this
          omega
        have hsucc : front.length + 1 = (front ++ [str]).length := by simp
        rw [hnext, hlength, hsucc]
        exact ih hothers
      · rintro ⟨res, strs⟩ ⟨rfl, hleast⟩
        refine ⟨_, rfl, rfl, ?_⟩
        obtain ⟨order, -, hcost⟩ := hleast.1
        have hlt : res.toNat < 2 ^ 32 := hcost ▸ Nat.mod_lt _ (by decide)
        rwa [UInt64.toNat_toUInt32, Nat.mod_eq_of_lt hlt]

/-- The result is the least cost of an order modulo `2 ^ 32`. -/
theorem optimalMerge_least {strs : List (List UInt8)} (hstrs : strs ≠ []) :
    ∃ s, optimalMerge strs strs.length = some s ∧ s.2 = strs ∧
      IsLeast {n | ∃ order, order.Perm strs ∧ orderCost order % 2 ^ 32 = n} s.1.toNat := by
  rw [optimalMerge, List.range_eq_range']
  refine tried_loop hstrs (fun order => ?_) (rfl : UInt32.toNat _ = 2 ^ 32 - 1) ?_
  · exact Nat.le_pred_of_lt (Nat.mod_lt (orderCost order) (by decide : 0 < 2 ^ 32))
  · intro j str res hj
    obtain ⟨others, hthere, hback, hperm⟩ := swap_front hj
    have hdepth : others.length < strs.length := by
      rw [← hperm.length_eq]
      exact Nat.lt_succ_self _
    obtain ⟨⟨resTmp, _⟩, hcall, rfl, hleast⟩ :=
      @optimalMergeAux_least [str] others 0 str.length strs.length hdepth
    have hlen : ([str] ++ others).length = strs.length := hperm.length_eq
    rw [hlen] at hcall
    have hcall : optimalMergeAux strs.length strs.length 0 (UInt64.ofNat str.length)
        (str :: others) 1 = some (resTmp, str :: others) := hcall
    refine ⟨resTmp.toNat, (if resTmp < res then resTmp else res, strs), ?_, rfl, ?_, ?_⟩
    · simp only [Nat.zero_add, hthere, Option.bind_eq_bind, Option.bind_some,
        List.getElem?_cons_zero, hcall, hback]
      rfl
    · simp only [UInt32.lt_iff_toNat_lt]
      split <;> rfl
    · rw [beginning_eq _ hperm]
      simpa only [orderCost, Nat.zero_add] using hleast

end InterviewQuestions.OptimalConcat

/-! When appending the strings one after another is the cheapest way to merge them. -/
namespace InterviewQuestions.OptimalConcat

open Library Merging

/-- All strings are concatenated at this total cost, two of them at a time, at the cost of the
length of the result. -/
inductive Joins : Multiset (List UInt8) → ℕ → Prop where
  | one (str : List UInt8) : Joins {str} 0
  | join {s t : List UInt8} {rest : Multiset (List UInt8)} {n : ℕ}
      (h : Joins ((s ++ t) ::ₘ rest) n) : Joins (s ::ₘ t ::ₘ rest) ((s ++ t).length + n)

/-- `optimal_merge` returns the least total cost and leaves the array as it was. -/
def ReturnsLeast (strs : List (List UInt8)) : Prop :=
  ∃ res, optimalMerge strs strs.length = some (res, strs) ∧ IsLeast {n | Joins strs n} res.toNat

variable {strs order : List (List UInt8)} {ms : Multiset (List UInt8)} {n : ℕ}

/-! ## Strings and their lengths -/

theorem Joins.merges (h : Joins ms n) : Merges (ms.map List.length) n := by
  induction h with
  | one str => exact .one str.length
  | @join s t rest n _ ih =>
    rw [Multiset.map_cons, List.length_append] at ih
    rw [Multiset.map_cons, Multiset.map_cons, List.length_append]
    exact .merge ih

theorem joins_of_merges {lens : Multiset ℕ} (h : Merges lens n) (hms : ms.map List.length = lens) :
    Joins ms n := by
  induction h generalizing ms with
  | one x =>
    obtain ⟨str, rfl, -⟩ := Multiset.map_eq_singleton.mp hms
    exact .one str
  | @merge x y n rest _ ih =>
    obtain ⟨s, hs, rfl, hothers⟩ := (Multiset.map_eq_cons _ _ _ _).mpr hms
    obtain ⟨others, rfl⟩ := Multiset.exists_cons_of_mem hs
    rw [Multiset.erase_cons_head] at hothers
    obtain ⟨t, ht, rfl, hrest⟩ := (Multiset.map_eq_cons _ _ _ _).mpr hothers
    obtain ⟨others, rfl⟩ := Multiset.exists_cons_of_mem ht
    rw [Multiset.erase_cons_head] at hrest
    rw [← List.length_append]
    refine .join (ih ?_)
    rw [Multiset.map_cons, List.length_append, hrest]

/-- The lengths, in an order of the strings. -/
def lengths (strs : List (List UInt8)) : List ℕ := strs.map List.length

theorem joins_iff : Joins strs n ↔ Merges (lengths strs) n :=
  ⟨fun h => h.merges, fun h => joins_of_merges h rfl⟩

theorem appendCost_concat (len : ℕ) (strs : List (List UInt8)) (str : List UInt8) :
    appendCost len (strs ++ [str]) =
      str.length + ((lengths strs).sum + len) + appendCost len strs := by
  induction strs generalizing len with
  | nil => simp [appendCost, lengths]
  | cons first strs ih =>
    rw [List.cons_append, appendCost, appendCost, ih]
    simp only [lengths, List.map_cons, List.sum_cons]
    omega

/-- The string that is appended last is on top of the pile. -/
theorem orderCost_eq_pile (strs : List (List UInt8)) :
    orderCost strs = pile (lengths strs).reverse := by
  induction strs using List.reverseRecOn with
  | nil => rfl
  | append_singleton strs str ih =>
    have hreverse : (lengths (strs ++ [str])).reverse = str.length :: (lengths strs).reverse := by
      simp [lengths]
    rw [hreverse]
    cases strs with
    | nil => rfl
    | cons first strs =>
      have hne : (lengths (first :: strs)).reverse ≠ [] := by simp [lengths]
      rw [pile_cons _ hne, ← ih, List.cons_append, orderCost, orderCost, appendCost_concat,
        List.sum_reverse]
      simp only [lengths, List.map_cons, List.sum_cons]
      omega

theorem joins_orderCost (hstrs : strs ≠ []) (hperm : order.Perm strs) :
    Joins strs (orderCost order) := by
  have hne : (lengths order).reverse ≠ [] := by
    rw [lengths, Ne, List.reverse_eq_nil_iff, List.map_eq_nil_iff]
    rintro rfl
    exact hstrs hperm.nil_eq.symm
  rw [joins_iff, orderCost_eq_pile]
  have hcoe : (↑(lengths order).reverse : Multiset ℕ) = lengths strs :=
    Multiset.coe_eq_coe.mpr ((List.reverse_perm _).trans (hperm.map _))
  rw [← hcoe]
  exact merges_pile hne

/-- Some order of the strings costs as little as any way to merge them, exactly if their lengths
grow. -/
theorem grows_lengths_iff (strs : List (List UInt8)) :
    Grows (descending (lengths strs)) ↔
      ∃ order, order.Perm strs ∧ ∀ n, Joins strs n → orderCost order ≤ n := by
  rw [grows_iff]
  constructor
  · rintro ⟨l, hl, hleast⟩
    have hperm : l.reverse.Perm (strs.map List.length) :=
      (List.reverse_perm l).trans (Multiset.coe_eq_coe.mp hl)
    obtain ⟨order, hlengths, horder⟩ :=
      (congrFun (congrFun (List.eq_map_comp_perm List.length) l.reverse) strs).mpr hperm
    refine ⟨order, horder, fun n hn => ?_⟩
    rw [orderCost_eq_pile, lengths, ← hlengths, List.reverse_reverse]
    exact hleast n (joins_iff.mp hn)
  · rintro ⟨order, hperm, hleast⟩
    refine ⟨(lengths order).reverse, ?_, fun n hn => ?_⟩
    · exact Multiset.coe_eq_coe.mpr ((List.reverse_perm _).trans (hperm.map _))
    · rw [← orderCost_eq_pile]
      exact hleast n (joins_iff.mpr hn)

/-! ## The least cost -/

theorem not_joins_zero (n : ℕ) : ¬ Joins 0 n := by
  generalize hms : (0 : Multiset (List UInt8)) = ms
  intro h
  cases h with
  | one str => exact Multiset.singleton_ne_zero str hms.symm
  | join h => exact Multiset.cons_ne_zero hms.symm

/-- The result is the least cost of an order modulo `2 ^ 32`. -/
theorem returnsLeast_iff_orders (hstrs : strs ≠ []) :
    ReturnsLeast strs ↔ ∃ m, IsLeast {n | Joins strs n} m ∧
      IsLeast {n | ∃ order, order.Perm strs ∧ orderCost order % 2 ^ 32 = n} m := by
  obtain ⟨⟨res, after⟩, hreturns, hafter, hleast⟩ := optimalMerge_least hstrs
  simp only at hafter hleast
  rw [hafter] at hreturns
  constructor
  · rintro ⟨res', hres', hjoins⟩
    cases hreturns.symm.trans hres'
    exact ⟨res.toNat, hjoins, hleast⟩
  · rintro ⟨m, hjoins, horders⟩
    exact ⟨res, hreturns, hleast.unique horders ▸ hjoins⟩

/-- The code finds the least cost if it is less than `2 ^ 32`, no cost of an order wraps around to
less than it, and either the lengths grow or the cost of some order wraps around to just the least
cost. -/
theorem optimalMerge_least_iff (strs : List (List UInt8)) :
    ReturnsLeast strs ↔ ∃ m < 2 ^ 32, IsLeast {n | Joins strs n} m ∧
      (∀ order, order.Perm strs → 2 ^ 32 ≤ orderCost order → m ≤ orderCost order % 2 ^ 32) ∧
      (Grows (descending (lengths strs)) ∨
        ∃ order, order.Perm strs ∧ 2 ^ 32 ≤ orderCost order ∧ orderCost order % 2 ^ 32 = m) := by
  by_cases hstrs : strs = []
  · subst hstrs
    constructor
    · rintro ⟨res, -, hmem, -⟩
      exact absurd hmem (not_joins_zero _)
    · rintro ⟨m, -, ⟨hmem, -⟩, -⟩
      exact absurd hmem (not_joins_zero m)
  rw [returnsLeast_iff_orders hstrs]
  constructor
  · rintro ⟨m, hjoins, ⟨order, hperm, hcost⟩, hlower⟩
    refine ⟨m, hcost ▸ Nat.mod_lt _ (by decide), hjoins,
      fun order hperm _ => hlower ⟨order, hperm, rfl⟩, ?_⟩
    by_cases hwraps : 2 ^ 32 ≤ orderCost order
    · exact .inr ⟨order, hperm, hwraps, hcost⟩
    · rw [Nat.mod_eq_of_lt (Nat.not_le.mp hwraps)] at hcost
      refine .inl ((grows_lengths_iff _).mpr ⟨order, hperm, fun n hn => ?_⟩)
      rw [hcost]
      exact hjoins.2 hn
  · rintro ⟨m, hm, hjoins, hwrapped, hattained⟩
    refine ⟨m, hjoins, ?_, ?_⟩
    · rcases hattained with hgrows | ⟨order, hperm, -, hcost⟩
      · obtain ⟨order, hperm, hbest⟩ := (grows_lengths_iff _).mp hgrows
        have hcost : orderCost order = m :=
          le_antisymm (hbest m hjoins.1) (hjoins.2 (joins_orderCost hstrs hperm))
        exact ⟨order, hperm, by rw [hcost, Nat.mod_eq_of_lt hm]⟩
      · exact ⟨order, hperm, hcost⟩
    · rintro _ ⟨order, hperm, rfl⟩
      by_cases hwraps : 2 ^ 32 ≤ orderCost order
      · exact hwrapped order hperm hwraps
      · rw [Nat.mod_eq_of_lt (Nat.not_le.mp hwraps)]
        exact hjoins.2 (joins_orderCost hstrs hperm)

/-- Where no cost wraps around, this depends on the lengths alone. -/
theorem returnsLeast_iff_grows (hstrs : strs ≠ [])
    (hfits : ∀ order, order.Perm strs → orderCost order < 2 ^ 32) :
    ReturnsLeast strs ↔ Grows (descending (lengths strs)) := by
  rw [returnsLeast_iff_orders hstrs, grows_lengths_iff]
  constructor
  · rintro ⟨m, hjoins, ⟨order, hperm, hcost⟩, -⟩
    rw [Nat.mod_eq_of_lt (hfits order hperm)] at hcost
    exact ⟨order, hperm, fun n hn => hcost ▸ hjoins.2 hn⟩
  · rintro ⟨order, hperm, hbest⟩
    refine ⟨orderCost order, ⟨joins_orderCost hstrs hperm, fun n hn => hbest n hn⟩,
      ⟨order, hperm, Nat.mod_eq_of_lt (hfits order hperm)⟩, ?_⟩
    rintro _ ⟨order', hperm', rfl⟩
    rw [Nat.mod_eq_of_lt (hfits order' hperm')]
    exact hbest _ (joins_orderCost hstrs hperm')

/-- Four strings of one character cost 9 one after another, and 8 in two pairs. -/
theorem not_returnsLeast_four : ¬ ReturnsLeast [[97], [97], [97], [97]] := by
  rintro ⟨res, hreturns, -, hleast⟩
  have hnine : (optimalMerge [[97], [97], [97], [97]] 4).map (fun s => s.1.toNat) = some 9 := by
    decide +kernel
  rw [show optimalMerge _ 4 = some (res, _) from hreturns] at hnine
  have hres : res.toNat = 9 := Option.some.inj hnine
  have hpairs : Joins ([97, 97] ::ₘ [97, 97] ::ₘ 0) 4 := .join (n := 0) (.one [97, 97, 97, 97])
  have hright : Joins ([97] ::ₘ [97] ::ₘ [97, 97] ::ₘ 0) 6 := .join (n := 4) hpairs
  rw [Multiset.cons_swap [97] [97, 97], Multiset.cons_swap [97] [97, 97]] at hright
  have hle : res.toNat ≤ 8 := hleast (.join (s := [97]) (t := [97]) (n := 6) hright)
  omega

end InterviewQuestions.OptimalConcat

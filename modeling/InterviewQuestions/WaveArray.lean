import Mathlib.Data.Int.Order.Basic
import Mathlib.Data.List.GetD
import Mathlib.Order.Basic
import Mathlib.Tactic.Common

/-! `sorting_searching/wave_array/solution.c`. There is no result where an index is out of range or
an assertion fails. -/
namespace InterviewQuestions.WaveArray

/-- `arr[i]` -/
def read (arr : List ℤ) (i : ℤ) : Option ℤ := if 0 ≤ i then arr[i.toNat]? else none

/-- The condition of the loop of `find_max`. -/
def goesOn (arr : List ℤ) (m : ℤ) : Option Bool :=
  if m < arr.length - 1 then do
    if (← read arr (m - 1)) ≥ (← read arr m) then return true
    else return (← read arr (m + 1)) ≥ (← read arr m)
  else some false

/-- The loop of `find_max`, to the `m` at its end. -/
def peakLoop (arr : List ℤ) : ℕ → ℤ → ℤ → Option ℤ
  | 0, _, _ => none
  | fuel + 1, l, r => do
      let m := l + (r - l).tdiv 2
      if ← goesOn arr m then
        if m > 0 then
          if (← read arr (m - 1)) > (← read arr m) then peakLoop arr fuel l m
          else peakLoop arr fuel (m + 1) r
        else none
      else return m

def findMax (arr : List ℤ) : Option ℤ :=
  if arr.length ≤ 1 then some 0
  else do
    let m ← peakLoop arr (arr.length + 1) 0 arr.length
    if m = arr.length - 1 then return m - 1 else return m

/-- The loops of `find_elem`, one for each direction: `goRight` says on which side of an element the
value is. -/
def searchLoop (arr : List ℤ) (val : ℤ) (goRight : ℤ → Bool) : ℕ → ℤ → ℤ → Option (Option ℤ)
  | 0, _, _ => none
  | fuel + 1, l, r =>
      if l ≤ r then do
        let m := l + (r - l).tdiv 2
        let x ← read arr m
        if x = val then return some m
        else if goRight x then searchLoop arr val goRight fuel (m + 1) r
        else searchLoop arr val goRight fuel l (m - 1)
      else some none

def findElem (arr : List ℤ) (val : ℤ) : Option ℤ := do
  let max ← findMax arr
  match ← searchLoop arr val (fun x => x < val) (arr.length + 1) 0 max with
  | some m => return m
  | none =>
    match ← searchLoop arr val (fun x => ¬ x < val) (arr.length + 1) max (arr.length - 1) with
    | some m => return m
    | none => return -1

/-- Increasing up to the index `p`, and decreasing from there on. -/
structure Wave (arr : List ℤ) (p : ℕ) : Prop where
  lt : p < arr.length
  up : (arr.take (p + 1)).Pairwise (· < ·)
  down : (arr.drop p).Pairwise (· > ·)

variable {arr : List ℤ} {val l r i j : ℤ} {p fuel : ℕ}

/-! ## The elements -/

/-- The element at an index of the array. -/
def elem (arr : List ℤ) (i : ℤ) : ℤ := arr.getD i.toNat 0

theorem read_eq (hi : 0 ≤ i) (hlt : i < arr.length) : read arr i = some (elem arr i) := by
  have hlt' : i.toNat < arr.length := by omega
  rw [read, if_pos hi, elem, List.getD_eq_getElem?_getD, List.getElem?_eq_getElem hlt']
  rfl

theorem elem_eq (hlt : i.toNat < arr.length) : elem arr i = arr[i.toNat] :=
  List.getD_eq_getElem _ _ hlt

theorem Wave.elem_lt (h : Wave arr p) (hi : 0 ≤ i) (hij : i < j) (hj : j ≤ p) :
    elem arr i < elem arr j := by
  have hp := h.lt
  have hlen : (arr.take (p + 1)).length = p + 1 := List.length_take_of_le hp
  have hlt := List.pairwise_iff_getElem.mp h.up i.toNat j.toNat (by omega) (by omega) (by omega)
  rw [List.getElem_take, List.getElem_take] at hlt
  rwa [elem_eq (by omega), elem_eq (by omega)]

theorem Wave.elem_gt (h : Wave arr p) (hi : p ≤ i) (hij : i < j) (hj : j < arr.length) :
    elem arr j < elem arr i := by
  have hp := h.lt
  have hlen : (arr.drop p).length = arr.length - p := List.length_drop
  have hlt := List.pairwise_iff_getElem.mp h.down (i.toNat - p) (j.toNat - p) (by omega) (by omega)
    (by omega)
  have hi' : p + (i.toNat - p) = i.toNat := by omega
  have hj' : p + (j.toNat - p) = j.toNat := by omega
  simp only [List.getElem_drop, hi', hj'] at hlt
  rwa [elem_eq (by omega), elem_eq (by omega)]

/-! ## The peak -/

theorem goesOn_end (hm : (arr.length : ℤ) - 1 ≤ j) : goesOn arr j = some false :=
  if_neg (by omega)

theorem goesOn_eq (hlow : 0 < j) (hhigh : j < arr.length - 1) :
    goesOn arr j =
      some (decide (elem arr j ≤ elem arr (j - 1) ∨ elem arr j ≤ elem arr (j + 1))) := by
  rw [goesOn, if_pos hhigh, read_eq (by omega) (by omega), read_eq (by omega) (by omega),
    read_eq (by omega) (by omega)]
  simp only [Option.bind_eq_bind, Option.bind_some, Option.pure_def]
  by_cases hle : elem arr j ≤ elem arr (j - 1)
  · rw [if_pos hle, decide_eq_true (Or.inl hle)]
  · rw [if_neg hle]
    simp [hle]

/-- At a peak in front the loop comes to the element before it. -/
theorem peakLoop_none (h : Wave arr 0) (hlen : 3 ≤ arr.length) (hr : 0 < r)
    (hr' : r ≤ arr.length) : peakLoop arr fuel 0 r = none := by
  induction fuel generalizing r with
  | zero => rfl
  | succ fuel ih =>
    have hm : 0 + (r - 0).tdiv 2 = r / 2 := by
      rw [Int.tdiv_eq_ediv_of_nonneg (by omega)]
      omega
    rw [peakLoop, hm]
    by_cases hzero : r / 2 = 0
    · have hnone : read arr (0 - 1) = none := rfl
      rw [hzero, goesOn, if_pos (by omega), hnone]
      rfl
    · have hgt := h.elem_gt (i := r / 2 - 1) (j := r / 2) (by omega) (by omega) (by omega)
      rw [goesOn_eq (by omega) (by omega), decide_eq_true (.inl hgt.le)]
      simp only [Option.bind_eq_bind, Option.bind_some]
      rw [if_pos trivial, if_pos (by omega), read_eq (by omega) (by omega),
        read_eq (by omega) (by omega)]
      simp only [Option.bind_some]
      rw [if_pos hgt]
      exact ih (by omega) (by omega)

/-- The window keeps the peak. -/
theorem peakLoop_eq (h : Wave arr p) (hp : 0 < p) (hl : 0 ≤ l) (hlp : l ≤ p) (hpr : p < r)
    (hr : r ≤ arr.length) (hfuel : r - l < fuel) :
    ∃ m : ℤ, peakLoop arr fuel l r = some m ∧
      (m = arr.length - 1 ∧ arr.length ≤ p + 2 ∨ m = p ∧ m < arr.length - 1) := by
  induction fuel generalizing l r with
  | zero => omega
  | succ fuel ih =>
    set m := l + (r - l) / 2 with hmid
    have hm : l + (r - l).tdiv 2 = m := by
      rw [Int.tdiv_eq_ediv_of_nonneg (by omega)]
    rw [peakLoop, hm]
    by_cases hend : m < arr.length - 1
    · by_cases hzero : m = 0
      · omega
      rw [goesOn_eq (by omega) hend]
      simp only [Option.bind_eq_bind, Option.bind_some]
      rcases lt_trichotomy m p with hlt | heq | hgt
      · have hnext := h.elem_lt (i := m) (j := m + 1) (by omega) (by omega) (by omega)
        have hprev := h.elem_lt (i := m - 1) (j := m) (by omega) (by omega) (by omega)
        rw [decide_eq_true (.inr hnext.le), if_pos rfl, if_pos (by omega),
          read_eq (by omega) (by omega), read_eq (by omega) (by omega)]
        simp only [Option.bind_some]
        rw [if_neg (by omega)]
        exact ih (by omega) (by omega) hpr hr (by omega)
      · have hnext := h.elem_gt (i := m) (j := m + 1) (by omega) (by omega) (by omega)
        have hprev := h.elem_lt (i := m - 1) (j := m) (by omega) (by omega) (by omega)
        rw [decide_eq_false (by omega), if_neg Bool.false_ne_true]
        exact ⟨m, rfl, .inr ⟨heq, hend⟩⟩
      · have hprev := h.elem_gt (i := m - 1) (j := m) (by omega) (by omega) (by omega)
        rw [decide_eq_true (.inl hprev.le), if_pos rfl, if_pos (by omega),
          read_eq (by omega) (by omega), read_eq (by omega) (by omega)]
        simp only [Option.bind_some]
        rw [if_pos hprev]
        exact ih hl hlp (by omega) (by omega) (by omega)
    · rw [goesOn_end (by omega)]
      exact ⟨m, rfl, .inl ⟨by omega, by omega⟩⟩

theorem findMax_eq (h : Wave arr p) (hp : 0 < p ∨ arr.length ≤ 2) :
    findMax arr = some ((min p (arr.length - 2) : ℕ) : ℤ) := by
  have hlt := h.lt
  rw [findMax]
  by_cases hshort : arr.length ≤ 1
  · rw [if_pos hshort, show min p (arr.length - 2) = 0 by omega]
    rfl
  rw [if_neg hshort]
  by_cases htwo : arr.length = 2
  · have hm : peakLoop arr (arr.length + 1) 0 arr.length = some 1 := by
      rw [peakLoop, htwo]
      have hone : (0 : ℤ) + (((2 : ℕ) : ℤ) - 0).tdiv 2 = 1 := rfl
      rw [hone, goesOn_end (by omega)]
      rfl
    rw [hm, htwo, show min p (2 - 2) = 0 by omega]
    rfl
  · obtain ⟨m, hm, hcases⟩ : ∃ m : ℤ, peakLoop arr (arr.length + 1) 0 arr.length = some m ∧
        (m = arr.length - 1 ∧ arr.length ≤ p + 2 ∨ m = p ∧ m < arr.length - 1) :=
      peakLoop_eq h (by omega) le_rfl (by omega) (by omega) le_rfl (by omega)
    rw [hm]
    simp only [Option.bind_eq_bind, Option.bind_some, Option.pure_def]
    rw [← apply_ite some]
    congr 1
    split_ifs <;> omega

theorem findMax_none (h : Wave arr 0) (hlen : 3 ≤ arr.length) : findMax arr = none := by
  rw [findMax, if_neg (by omega), peakLoop_none h hlen (by omega) le_rfl]
  rfl

/-! ## The searches -/

/-- The result is an index from `l` to `r` with the value, if there is one. -/
structure Searched (arr : List ℤ) (val l r : ℤ) (res : Option ℤ) : Prop where
  found : ∀ m, res = some m → l ≤ m ∧ m ≤ r ∧ elem arr m = val
  ne : res = none → ∀ i, l ≤ i → i ≤ r → elem arr i ≠ val

/-- The window was narrowed down by indices that do not have the value. -/
theorem Searched.widen {l' r' : ℤ} {res : Option ℤ} (h : Searched arr val l' r' res) (hl : l ≤ l')
    (hr : r' ≤ r) (hrest : ∀ i, l ≤ i → i ≤ r → i < l' ∨ r' < i → elem arr i ≠ val) :
    Searched arr val l r res where
  found m hm := by
    obtain ⟨hlm, hmr, heq⟩ := h.found m hm
    exact ⟨hl.trans hlm, hmr.trans hr, heq⟩
  ne hnone i hi hir := by
    by_cases hin : l' ≤ i ∧ i ≤ r'
    · exact h.ne hnone i hin.1 hin.2
    · exact hrest i hi hir (by omega)

/-- The value is found if it is in the window, where `goRight` is right about the elements. -/
theorem searchLoop_eq {goRight : ℤ → Bool} (hl : 0 ≤ l) (hlr : l ≤ r + 1) (hr : r < arr.length)
    (hlow : ∀ i j, l ≤ i → i < j → j ≤ r → goRight (elem arr j) = true → elem arr i ≠ val)
    (hhigh : ∀ i j, l ≤ i → i < j → j ≤ r → goRight (elem arr i) = false → elem arr i ≠ val →
      elem arr j ≠ val)
    (hfuel : r - l + 1 < fuel) :
    ∃ res, searchLoop arr val goRight fuel l r = some res ∧ Searched arr val l r res := by
  induction fuel generalizing l r with
  | zero => omega
  | succ fuel ih =>
    rw [searchLoop]
    by_cases hle : l ≤ r
    · set m := l + (r - l) / 2 with hmid
      have hm : l + (r - l).tdiv 2 = m := by rw [Int.tdiv_eq_ediv_of_nonneg (by omega)]
      have hlm : l ≤ m := by omega
      have hmr : m ≤ r := by omega
      rw [if_pos hle, hm]
      dsimp only
      rw [read_eq (by omega) (by omega)]
      simp only [Option.bind_eq_bind, Option.bind_some]
      by_cases hval : elem arr m = val
      · rw [if_pos hval]
        exact ⟨some m, rfl, fun _ h => Option.some.inj h ▸ ⟨hlm, hmr, hval⟩, nofun⟩
      rw [if_neg hval]
      cases hside : goRight (elem arr m) with
      | true =>
        rw [if_pos rfl]
        obtain ⟨res, hres, hrest⟩ := ih (l := m + 1) (r := r) (by omega) (by omega) hr
          (fun i j hi => hlow i j (by omega)) (fun i j hi => hhigh i j (by omega)) (by omega)
        refine ⟨res, hres, hrest.widen (by omega) le_rfl fun i hi hir hout => ?_⟩
        have hcases : i < m ∨ i = m := by omega
        rcases hcases with hlt | rfl
        · exact hlow i m hi hlt hmr hside
        · exact hval
      | false =>
        rw [if_neg Bool.false_ne_true]
        obtain ⟨res, hres, hrest⟩ := ih (l := l) (r := m - 1) hl (by omega) (by omega)
          (fun i j hi hij hj => hlow i j hi hij (by omega))
          (fun i j hi hij hj => hhigh i j hi hij (by omega)) (by omega)
        refine ⟨res, hres, hrest.widen le_rfl (by omega) fun i hi hir hout => ?_⟩
        have hcases : m < i ∨ i = m := by omega
        rcases hcases with hgt | rfl
        · exact hhigh m i hlm hgt hir hside hval
        · exact hval
    · rw [if_neg hle]
      exact ⟨none, rfl, nofun, fun _ i hi hir => by omega⟩

theorem searchLoop_left (val : ℤ) {mx : ℤ} (h : Wave arr p) (hmx : 0 ≤ mx) (hp : mx ≤ p) :
    ∃ res, searchLoop arr val (fun x => x < val) (arr.length + 1) 0 mx = some res ∧
      Searched arr val 0 mx res := by
  have hlt := h.lt
  refine searchLoop_eq le_rfl (by omega) (by omega) (fun i j hi hij hj hside => ?_)
    (fun i j hi hij hj hside hne => ?_) (by omega)
  all_goals
    have hless := h.elem_lt hi hij (by omega)
    simp only [decide_eq_true_eq, decide_eq_false_iff_not] at hside
    omega

theorem searchLoop_right (val : ℤ) {mx : ℤ} (h : Wave arr p) (hp : p ≤ mx) (hmx : mx < arr.length) :
    ∃ res, searchLoop arr val (fun x => ¬ x < val) (arr.length + 1) mx (arr.length - 1) =
        some res ∧
      Searched arr val mx (arr.length - 1) res := by
  refine searchLoop_eq (by omega) (by omega) (by omega) (fun i j hi hij hj hside => ?_)
    (fun i j hi hij hj hside hne => ?_) (by omega)
  all_goals
    have hless := h.elem_gt (i := i) (by omega) hij (by omega)
    simp only [decide_eq_true_eq, decide_eq_false_iff_not] at hside
    omega

/-- Where the peak is at the end, the search on the right is over an increasing pair. -/
theorem searchLoop_end {fuel : ℕ} (h : Wave arr (arr.length - 1)) (hlen : 2 ≤ arr.length)
    (hne : elem arr (arr.length - 2) ≠ val) :
    searchLoop arr val (fun x => ¬ x < val) (fuel + 3) (arr.length - 2) (arr.length - 1) =
      some none := by
  have hless := h.elem_lt (i := arr.length - 2) (j := arr.length - 1) (by omega) (by omega)
    (by omega)
  have hfirst : (arr.length : ℤ) - 2 + ((arr.length : ℤ) - 1 - (arr.length - 2)).tdiv 2 =
      arr.length - 2 := by
    rw [Int.tdiv_eq_ediv_of_nonneg (by omega)]
    omega
  have hsecond : (arr.length : ℤ) - 2 + 1 + ((arr.length : ℤ) - 1 - (arr.length - 2 + 1)).tdiv 2 =
      arr.length - 1 := by
    rw [Int.tdiv_eq_ediv_of_nonneg (by omega)]
    omega
  rw [searchLoop, if_pos (by omega), hfirst]
  dsimp only
  rw [read_eq (by omega) (by omega)]
  simp only [Option.bind_eq_bind, Option.bind_some]
  rw [if_neg hne]
  by_cases hside : elem arr (arr.length - 2) < val
  · rw [if_neg (by simpa using hside), searchLoop, if_neg (by omega)]
  · rw [if_pos (by simpa using hside), searchLoop, if_pos (by omega), hsecond]
    dsimp only
    rw [read_eq (by omega) (by omega)]
    simp only [Option.bind_eq_bind, Option.bind_some]
    have hlast : elem arr (arr.length - 1) ≠ val := by omega
    rw [if_neg hlast, if_pos (by simp only [decide_eq_true_eq]; omega), searchLoop,
      if_neg (by omega)]

/-! ## The element found -/

/-- The result is an index of the value, or −1 if there is none. -/
def Finds (arr : List ℤ) (val : ℤ) (res : Option ℤ) : Prop :=
  if val ∈ arr then ∃ i : ℕ, arr[i]? = some val ∧ res = some (i : ℤ) else res = some (-1)

instance (res : Option ℤ) : Decidable (Finds arr val res) :=
  decidable_of_iff (if val ∈ arr then ∃ i ∈ List.range arr.length, arr[i]? = some val ∧
      res = some (i : ℤ) else res = some (-1)) <| by
    unfold Finds
    split
    · refine exists_congr fun i => ⟨fun h => h.2, fun h => ⟨?_, h⟩⟩
      exact List.mem_range.mpr (List.getElem?_eq_some_iff.mp h.1).1
    · rfl

theorem mem_iff_elem : val ∈ arr ↔ ∃ i : ℤ, 0 ≤ i ∧ i ≤ arr.length - 1 ∧ elem arr i = val := by
  constructor
  · intro hmem
    obtain ⟨i, hi, heq⟩ := List.getElem_of_mem hmem
    exact ⟨i, by omega, by omega, (elem_eq (i := i) hi).trans heq⟩
  · rintro ⟨i, hi, hlt, rfl⟩
    rw [elem_eq (by omega)]
    exact List.getElem_mem _

theorem finds_some {m : ℤ} (hm : 0 ≤ m) (hlt : m ≤ arr.length - 1) (heq : elem arr m = val) :
    Finds arr val (some m) := by
  rw [Finds, if_pos (mem_iff_elem.mpr ⟨m, hm, hlt, heq⟩)]
  refine ⟨m.toNat, ?_, congrArg some (Int.toNat_of_nonneg hm).symm⟩
  rw [List.getElem?_eq_getElem (by omega), ← elem_eq (by omega), heq]

theorem finds_neg : Finds arr val (some (-1)) ↔ val ∉ arr := by
  rw [Finds]
  split
  case isTrue hmem =>
    refine ⟨?_, fun h => absurd hmem h⟩
    rintro ⟨i, -, hi⟩
    have := Option.some.inj hi
    omega
  case isFalse hmem => exact ⟨fun _ => hmem, fun _ => rfl⟩

theorem finds_none : ¬ Finds arr val none := by
  rw [Finds]
  split
  · rintro ⟨i, -, hi⟩
    cases hi
  · nofun

/-- Where the two searches cover the array. -/
theorem finds_of_inner (h : Wave arr p) (hp : 0 < p ∨ arr.length ≤ 2)
    (hend : arr.length = 1 ∨ p ≠ arr.length - 1) : Finds arr val (findElem arr val) := by
  have hlt := h.lt
  obtain ⟨left, hleft, hlow⟩ :=
    searchLoop_left val h (Int.natCast_nonneg (min p (arr.length - 2))) (by omega)
  obtain ⟨right, hright, hhigh⟩ := searchLoop_right val h
    (show (p : ℤ) ≤ (min p (arr.length - 2) : ℕ) by omega) (by omega)
  rw [findElem, findMax_eq h hp]
  simp only [Option.bind_eq_bind, Option.bind_some, hleft]
  cases left with
  | some m =>
    obtain ⟨hm, hle, heq⟩ := hlow.found m rfl
    exact finds_some hm (by omega) heq
  | none =>
    simp only [hright, Option.bind_some]
    cases right with
    | some m =>
      obtain ⟨hm, hle, heq⟩ := hhigh.found m rfl
      exact finds_some (by omega) hle heq
    | none =>
      refine finds_neg.mpr fun hmem => ?_
      obtain ⟨i, hi, hlast, heq⟩ := mem_iff_elem.mp hmem
      rcases Int.le_total i (min p (arr.length - 2) : ℕ) with hle | hge
      · exact hlow.ne rfl i hi hle heq
      · exact hhigh.ne rfl i hge hlast heq

/-- Where the peak is at the end, it is not found. -/
theorem finds_of_end (h : Wave arr (arr.length - 1)) (hlen : 2 ≤ arr.length) :
    Finds arr val (findElem arr val) ↔ elem arr (arr.length - 1) ≠ val := by
  have hmx : ((min (arr.length - 1) (arr.length - 2) : ℕ) : ℤ) = arr.length - 2 := by omega
  obtain ⟨left, hleft, hlow⟩ :=
    searchLoop_left val h (show 0 ≤ (arr.length : ℤ) - 2 by omega) (by omega)
  rw [findElem, findMax_eq h (by omega), hmx]
  simp only [Option.bind_eq_bind, Option.bind_some, hleft]
  cases left with
  | some m =>
    obtain ⟨hm, hle, heq⟩ := hlow.found m rfl
    have hless := h.elem_lt (j := arr.length - 1) hm (by omega) (by omega)
    exact iff_of_true (finds_some hm (by omega) heq) (by omega)
  | none =>
    obtain ⟨fuel, hfuel⟩ : ∃ fuel, arr.length + 1 = fuel + 3 := ⟨arr.length - 2, by omega⟩
    rw [hfuel, searchLoop_end h hlen (hlow.ne rfl _ (by omega) le_rfl)]
    refine finds_neg.trans ⟨fun hmem heq => ?_, fun hne hmem => ?_⟩
    · exact hmem (mem_iff_elem.mpr ⟨_, by omega, le_rfl, heq⟩)
    · obtain ⟨i, hi, hlast, heq⟩ := mem_iff_elem.mp hmem
      have hcases : i ≤ arr.length - 2 ∨ i = arr.length - 1 := by omega
      rcases hcases with hle | rfl
      · exact hlow.ne rfl i hi hle heq
      · exact hne heq

theorem elem_ne_iff (hp : p < arr.length) : elem arr p ≠ val ↔ arr[p]? ≠ some val := by
  rw [elem_eq (by omega), List.getElem?_eq_getElem hp, Ne, Ne, Option.some.injEq]
  rfl

/-- The element is found, or seen not to be there, except where a peak in front leads the first
search out of the array, and where the value is a peak at the end. -/
theorem finds_findElem_iff (h : Wave arr p) :
    Finds arr val (findElem arr val) ↔
      (arr.length ≤ 2 ∨ p ≠ 0) ∧
        (arr.length = 1 ∨ p ≠ arr.length - 1 ∨ arr[p]? ≠ some val) := by
  have hlt := h.lt
  by_cases hp : arr.length ≤ 2 ∨ p ≠ 0
  · rw [← elem_ne_iff hlt]
    by_cases hend : arr.length = 1 ∨ p ≠ arr.length - 1
    · exact iff_of_true (finds_of_inner h (by omega) hend) ⟨hp, by tauto⟩
    · obtain rfl : p = arr.length - 1 := by omega
      have hcast : ((arr.length - 1 : ℕ) : ℤ) = arr.length - 1 := by omega
      rw [finds_of_end h (by omega), hcast]
      tauto
  · obtain rfl : p = 0 := by omega
    refine iff_of_false ?_ (fun hcond => hp hcond.1)
    rw [findElem, findMax_none h (by omega)]
    exact finds_none

/-- The value in the middle. -/
theorem finds_findElem_iff_five :
    Wave [1, 4, 7, 5, 2] 2 ∧ Finds [1, 4, 7, 5, 2] 5 (findElem [1, 4, 7, 5, 2] 5) :=
  have h : Wave [1, 4, 7, 5, 2] 2 := ⟨by decide, by decide, by decide⟩
  ⟨h, (finds_findElem_iff h).mpr (by decide)⟩

/-- A peak at either end. -/
theorem not_finds_ends :
    Wave [3, 2, 1] 0 ∧ ¬ Finds [3, 2, 1] 2 (findElem [3, 2, 1] 2) ∧
      Wave [1, 2] 1 ∧ ¬ Finds [1, 2] 2 (findElem [1, 2] 2) :=
  ⟨⟨by decide, by decide, by decide⟩, by decide, ⟨by decide, by decide, by decide⟩, by decide⟩

end InterviewQuestions.WaveArray

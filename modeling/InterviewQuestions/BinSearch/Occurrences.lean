import InterviewQuestions.Library.Recording
import Mathlib.Algebra.GroupWithZero.Nat
import Mathlib.Algebra.Ring.Int.Defs
import Mathlib.Data.Int.Notation
import Mathlib.Data.Nat.Notation
import Mathlib.Order.Bounds.Basic
import Mathlib.Tactic.Common

/-! `DS_Algos/bin_search/binary_search.c`. What is recorded is at which indices `arr` is read.
The indices are of the type `ssize_t`, of 64 bits, and stay far below its bounds; only the
conversions from and to `size_t` are written out. -/
namespace InterviewQuestions.BinSearch

open Library (Recording)
open Library.Recording (note stop)

/-- An `int arr[]`, and the memory before and behind it. -/
structure IntArray where
  memory : ℤ → Int32
  arrSz : ℕ
  fits : 4 * arrSz < 2 ^ 64

inductive Stop where
  | unfinished
  | overflow
  | assertion
deriving DecidableEq, Repr

abbrev Run := Recording ℤ Stop

def read (arr : IntArray) (i : ℤ) : Run Int32 := do
  note i
  return arr.memory i

/-- A `size_t` that becomes a `ssize_t`. -/
def toSsize (n : ℕ) : ℤ := if n < 2 ^ 63 then n else (n : ℤ) - 2 ^ 64

/-- A `ssize_t` that is compared with a `size_t`. -/
def toSize (z : ℤ) : ℕ := (z % 2 ^ 64).toNat

/-- `arr_sz-1`, which wraps around. -/
def IntArray.last (arr : IntArray) : ℤ :=
  toSsize (if arr.arrSz = 0 then 2 ^ 64 - 1 else arr.arrSz - 1)

/-- How a loop is left: by its `return`, or by its condition. -/
inductive Exit where
  | found (mid : ℤ)
  | crossed (l r : ℤ)

/-- The loop of `binary_search` and of `bin_search_closest`. -/
def narrow (arr : IntArray) (val : Int32) : ℕ → ℤ → ℤ → Run Exit
  | 0, _, _ => stop .unfinished
  | fuel + 1, l, r =>
      if l ≤ r then do
        let mid := l + (r - l).tdiv 2
        let x ← read arr mid
        if x = val then return .found mid
        else do
          let x ← read arr mid
          if x < val then narrow arr val fuel (mid + 1) r
          else narrow arr val fuel l (mid - 1)
      else return .crossed l r

def binarySearch (arr : IntArray) (val : Int32) : Run ℤ := do
  match ← narrow arr val (arr.arrSz + 1) 0 arr.last with
  | .found mid => return mid
  | .crossed _ _ => return -1

/-- The value of an expression of the type `int`. -/
def int (z : ℤ) : Run ℤ := if -2 ^ 31 ≤ z ∧ z < 2 ^ 31 then return z else stop .overflow

/-- The macro evaluates its argument twice. -/
def abs (x : Run ℤ) : Run ℤ := do
  let v ← x
  if 0 ≤ v then x
  else do
    let v ← x
    int (-v)

/-- `val-arr[i]` -/
def diff (arr : IntArray) (val : Int32) (i : ℤ) : Run ℤ := do
  let x ← read arr i
  int (val.toInt - x.toInt)

def binSearchClosest (arr : IntArray) (val : Int32) : Run ℤ := do
  match ← narrow arr val (arr.arrSz + 1) 0 arr.last with
  | .found mid => return mid
  | .crossed l r =>
      if toSize l < arr.arrSz ∧ 0 ≤ r then do
        let diffL ← abs (diff arr val l)
        let diffR ← abs (diff arr val r)
        return if diffL < diffR then l else r
      else if toSize l = arr.arrSz then return r
      else if r < 0 then return l
      else stop .assertion

/-- The loop of the last two functions, which goes on behind `m` where `below` holds there. -/
def converge (arr : IntArray) (below : Int32 → Bool) : ℕ → ℤ → ℤ → Run (ℤ × ℤ)
  | 0, _, _ => stop .unfinished
  | fuel + 1, l, r =>
      if l + 1 ≠ r then do
        let m := l + (r - l).tdiv 2
        let x ← read arr m
        if below x then converge arr below fuel m r else converge arr below fuel l m
      else return (l, r)

def binSearchFirstOccurrence (arr : IntArray) (val : Int32) : Run ℤ := do
  let (_, r) ← converge arr (fun x => x < val) (arr.arrSz + 2) (-1) (toSsize arr.arrSz)
  if toSize r = arr.arrSz then return -1
  else do
    let x ← read arr r
    return if x ≠ val then -1 else r

def binSearchLastOccurrence (arr : IntArray) (val : Int32) : Run ℤ := do
  let (l, _) ← converge arr (fun x => ¬ val < x) (arr.arrSz + 2) (-1) (toSsize arr.arrSz)
  if toSize l = arr.arrSz then return -1
  else do
    let x ← read arr l
    return if x ≠ val then -1 else l

/-! What the two loops find in an array in order, and the occurrences of a value. -/

open Library.Recording

variable {arr : IntArray} {val : Int32} {below : Int32 → Bool} {fuel : ℕ} {l r i j : ℤ}

namespace IntArray

def InRange (arr : IntArray) (i : ℤ) : Prop := 0 ≤ i ∧ i < arr.arrSz

def Sorted (arr : IntArray) : Prop :=
  ∀ i j, arr.InRange i → arr.InRange j → i ≤ j → arr.memory i ≤ arr.memory j

/-- The indices at which a value is found. -/
def occurrences (arr : IntArray) (val : Int32) : Set ℤ := {i | arr.InRange i ∧ arr.memory i = val}

theorem Sorted.lt_of_lt (h : arr.Sorted) (hi : arr.InRange i) (hj : arr.InRange j) (hij : i ≤ j)
    (hval : arr.memory j < val) : arr.memory i < val :=
  Int32.lt_of_le_of_lt (h i j hi hj hij) hval

theorem Sorted.lt_of_gt (h : arr.Sorted) (hi : arr.InRange i) (hj : arr.InRange j) (hij : i ≤ j)
    (hval : val < arr.memory i) : val < arr.memory j :=
  Int32.lt_of_lt_of_le hval (h i j hi hj hij)

end IntArray

/-! ## Indices -/

theorem toSsize_of_lt {n : ℕ} (h : n < 2 ^ 62) : toSsize n = n := by
  rw [toSsize, if_pos (by omega)]

theorem toSize_natCast {n : ℕ} (h : n < 2 ^ 62) : toSize n = n := by
  unfold toSize
  omega

theorem IntArray.last_eq (arr : IntArray) : arr.last = arr.arrSz - 1 := by
  have hfits := arr.fits
  unfold IntArray.last toSsize
  split <;> split <;> omega

/-- `mid` lies in the middle. -/
theorem mid_spec (h : l ≤ r) : l ≤ l + (r - l).tdiv 2 ∧ l + (r - l).tdiv 2 ≤ r ∧
    (l < r → l + (r - l).tdiv 2 < r) ∧ (l + 1 < r → l < l + (r - l).tdiv 2) := by
  rw [Int.tdiv_eq_ediv_of_nonneg (by omega)]
  omega

/-! ## The loops -/

theorem ensures_read {stopped : Stop → Prop} (h : arr.InRange i) :
    (read arr i).Ensures arr.InRange (fun x => x = arr.memory i) stopped :=
  (ensures_note h).bind fun _ _ => ensures_pure rfl

/-- Everything before `l` is smaller, and everything behind `r` is larger. -/
structure Enclosed (arr : IntArray) (val : Int32) (l r : ℤ) : Prop where
  left : 0 ≤ l
  right : r < arr.arrSz
  order : l ≤ r + 1
  before : ∀ i, arr.InRange i → i < l → arr.memory i < val
  behind : ∀ i, arr.InRange i → r < i → val < arr.memory i

/-- What is known when `narrow` ends. -/
def Exit.Sound (arr : IntArray) (val : Int32) : Exit → Prop
  | .found mid => mid ∈ arr.occurrences val
  | .crossed l r => Enclosed arr val l r ∧ l = r + 1

theorem Enclosed.start (arr : IntArray) (val : Int32) : Enclosed arr val 0 arr.last := by
  rw [arr.last_eq]
  refine ⟨le_refl _, by omega, by omega, fun i hi hlt => ?_, fun i hi hlt => ?_⟩
  · exact absurd hi.1 (by omega)
  · exact absurd hi.2 (by omega)

theorem narrow_spec (h : arr.Sorted) (hlr : Enclosed arr val l r) (hfuel : r + 1 - l < fuel) :
    (narrow arr val fuel l r).Ensures arr.InRange (Exit.Sound arr val) fun _ => False := by
  induction fuel generalizing l r with
  | zero =>
    have hord := hlr.order
    omega
  | succ fuel ih =>
    rw [narrow]
    split
    case isTrue hle =>
      obtain ⟨hlow, hhigh, -, -⟩ := mid_spec hle
      simp only
      set mid := l + (r - l).tdiv 2
      have hl := hlr.left
      have hr := hlr.right
      have hmid : arr.InRange mid := ⟨by omega, by omega⟩
      refine (ensures_read hmid).bind ?_
      rintro x rfl
      split
      case isTrue heq => exact ensures_pure ⟨hmid, heq⟩
      case isFalse hne =>
        refine (ensures_read hmid).bind ?_
        rintro x rfl
        split
        case isTrue hlt =>
          refine ih ⟨by omega, hr, by omega, fun i hi him => ?_, hlr.behind⟩ (by omega)
          exact h.lt_of_lt hi hmid (by omega) hlt
        case isFalse hge =>
          refine ih ⟨hl, by omega, by omega, hlr.before, fun i hi him => ?_⟩ (by omega)
          have hgt : val < arr.memory mid :=
            Int32.lt_of_le_of_ne (Int32.not_lt.mp hge) (Ne.symm hne)
          exact h.lt_of_gt hmid hi (by omega) hgt
    case isFalse hgt =>
      have hord := hlr.order
      exact ensures_pure ⟨hlr, by omega⟩

theorem narrow_start (h : arr.Sorted) (val : Int32) :
    (narrow arr val (arr.arrSz + 1) 0 arr.last).Ensures arr.InRange (Exit.Sound arr val)
      fun _ => False := by
  refine narrow_spec h (Enclosed.start arr val) ?_
  rw [arr.last_eq]
  omega

/-- `below` holds up to `l`, and from `r` on it does not. -/
structure Split (arr : IntArray) (below : Int32 → Bool) (l r : ℤ) : Prop where
  left : -1 ≤ l
  right : r ≤ arr.arrSz
  order : l < r
  before : ∀ i, arr.InRange i → i ≤ l → below (arr.memory i) = true
  behind : ∀ i, arr.InRange i → r ≤ i → below (arr.memory i) = false

/-- Where `below` holds, it also holds before. -/
def Cuts (arr : IntArray) (below : Int32 → Bool) : Prop :=
  ∀ i j, arr.InRange i → arr.InRange j → i ≤ j → below (arr.memory j) = true →
    below (arr.memory i) = true

theorem Split.start (arr : IntArray) (below : Int32 → Bool) :
    Split arr below (-1) (toSsize arr.arrSz) := by
  have hfits := arr.fits
  rw [toSsize_of_lt (by omega)]
  refine ⟨le_refl _, le_refl _, by omega, fun i hi hle => ?_, fun i hi hle => ?_⟩
  · exact absurd hi.1 (by omega)
  · exact absurd hi.2 (by omega)

theorem converge_spec (h : Cuts arr below) (hlr : Split arr below l r) (hfuel : r - l ≤ fuel) :
    (converge arr below fuel l r).Ensures arr.InRange
      (fun p => Split arr below p.1 p.2 ∧ p.1 + 1 = p.2) fun _ => False := by
  induction fuel generalizing l r with
  | zero =>
    have hord := hlr.order
    omega
  | succ fuel ih =>
    rw [converge]
    have hord := hlr.order
    split
    case isTrue hne =>
      obtain ⟨-, -, hhigh, hlow⟩ := mid_spec hord.le
      simp only
      set m := l + (r - l).tdiv 2
      have hl := hlr.left
      have hr := hlr.right
      have hlm := hlow (by omega)
      have hmr := hhigh hord
      have hm : arr.InRange m := ⟨by omega, by omega⟩
      refine (ensures_read hm).bind ?_
      rintro x rfl
      split
      case isTrue hbelow =>
        refine ih ⟨by omega, hr, hmr, fun i hi him => ?_, hlr.behind⟩ (by omega)
        exact h i m hi hm him hbelow
      case isFalse hbelow =>
        refine ih ⟨hl, by omega, hlm, hlr.before, fun i hi him => ?_⟩ (by omega)
        exact Bool.eq_false_iff.mpr fun hi' => hbelow (h m i hm hi him hi')
    case isFalse heq => exact ensures_pure ⟨hlr, by omega⟩

theorem converge_start (h : Cuts arr below) :
    (converge arr below (arr.arrSz + 2) (-1) (toSsize arr.arrSz)).Ensures arr.InRange
      (fun p => Split arr below p.1 p.2 ∧ p.1 + 1 = p.2) fun _ => False := by
  have hfits := arr.fits
  refine converge_spec h (Split.start arr below) ?_
  rw [toSsize_of_lt (by omega)]
  omega

theorem cuts_lt (h : arr.Sorted) (val : Int32) : Cuts arr (fun x => x < val) :=
  fun _ _ hi hj hij hlt => decide_eq_true (h.lt_of_lt hi hj hij (of_decide_eq_true hlt))

theorem cuts_not_gt (h : arr.Sorted) (val : Int32) : Cuts arr (fun x => ¬ val < x) :=
  fun _ _ hi hj hij hle => decide_eq_true fun hlt =>
    of_decide_eq_true hle (h.lt_of_gt hi hj hij hlt)

/-! ## The functions -/

/-- The answer is -1 for a value that does not occur, and else one of those asked for. -/
def Answers (arr : IntArray) (val : Int32) (wanted : ℤ → Prop) (i : ℤ) : Prop :=
  (i = -1 ↔ arr.occurrences val = ∅) ∧ (i ≠ -1 → wanted i)

theorem answers_of_mem {wanted : ℤ → Prop} (hi : i ∈ arr.occurrences val) (hw : wanted i) :
    Answers arr val wanted i := by
  have hpos := hi.1.1
  refine ⟨iff_of_false (by omega) ?_, fun _ => hw⟩
  exact Set.Nonempty.ne_empty ⟨i, hi⟩

theorem answers_neg_one {wanted : ℤ → Prop} (h : ∀ i, arr.InRange i → arr.memory i ≠ val) :
    Answers arr val wanted (-1) := by
  refine ⟨iff_of_true rfl ?_, fun hne => absurd rfl hne⟩
  exact Set.eq_empty_of_forall_notMem fun i hi => h i hi.1 hi.2

theorem binarySearch_spec (h : arr.Sorted) (val : Int32) :
    (binarySearch arr val).Ensures arr.InRange (Answers arr val (· ∈ arr.occurrences val))
      fun _ => False := by
  rw [binarySearch]
  refine (narrow_start h val).bind fun exit hexit => ?_
  cases exit with
  | found mid => exact ensures_pure (answers_of_mem hexit hexit)
  | crossed l r =>
    obtain ⟨hlr, rfl⟩ := hexit
    refine ensures_pure (answers_neg_one fun i hi => ?_)
    by_cases hle : i < r + 1
    · exact Int32.ne_of_lt (hlr.before i hi hle)
    · exact (Int32.ne_of_lt (hlr.behind i hi (by omega))).symm

theorem first_spec (h : arr.Sorted) (val : Int32) :
    (binSearchFirstOccurrence arr val).Ensures arr.InRange
      (Answers arr val (IsLeast (arr.occurrences val))) fun _ => False := by
  rw [binSearchFirstOccurrence]
  refine (converge_start (cuts_lt h val)).bind ?_
  rintro ⟨l, r⟩ ⟨hlr, rfl : l + 1 = r⟩
  have hfits := arr.fits
  have hl := hlr.left
  have hr := hlr.right
  simp only at hl hr ⊢
  have hbefore (i : ℤ) (hi : arr.InRange i) (hle : i ≤ l) : arr.memory i ≠ val :=
    Int32.ne_of_lt (of_decide_eq_true (hlr.before i hi hle))
  have hbehind (i : ℤ) (hi : arr.InRange i) (hle : l + 1 ≤ i) : val ≤ arr.memory i :=
    Int32.not_lt.mp (of_decide_eq_false (hlr.behind i hi hle))
  obtain ⟨n, hn⟩ : ∃ n : ℕ, l + 1 = n := Int.eq_ofNat_of_zero_le (by omega)
  rw [hn, toSize_natCast (by omega)]
  split
  case isTrue hend =>
    refine ensures_pure (answers_neg_one fun i hi => hbefore i hi ?_)
    have := hi.2
    omega
  case isFalse hend =>
    have hrange : arr.InRange n := ⟨by omega, by omega⟩
    refine (ensures_read hrange).bind ?_
    rintro x rfl
    refine ensures_pure ?_
    split
    case isTrue hne =>
      refine answers_neg_one fun i hi => ?_
      by_cases hle : i ≤ l
      · exact hbefore i hi hle
      · have hlt : val < arr.memory n :=
          Int32.lt_of_le_of_ne (hbehind n hrange (by omega)) (Ne.symm hne)
        exact (Int32.ne_of_lt (h.lt_of_gt hrange hi (by omega) hlt)).symm
    case isFalse heq =>
      have hmem : (n : ℤ) ∈ arr.occurrences val := ⟨hrange, not_not.mp heq⟩
      refine answers_of_mem hmem ⟨hmem, fun i hi => ?_⟩
      by_contra hlt
      exact hbefore i hi.1 (by omega) hi.2

/-- The comparison with `arr_sz` never holds: the last read is at `l`, whatever that is. -/
theorem last_run (h : arr.Sorted) (val : Int32) :
    ∃ l reads, Split arr (fun x => ¬ val < x) l (l + 1) ∧ (∀ i ∈ reads, arr.InRange i) ∧
      binSearchLastOccurrence arr val =
        ⟨reads ++ [l], .ok (if arr.memory l ≠ val then -1 else l)⟩ := by
  have hloop := converge_start (cuts_not_gt h val)
  obtain ⟨⟨l, r⟩, hout, hlr, rfl : l + 1 = r⟩ := hloop.exists_ok
  refine ⟨l, _, hlr, hloop.log, ?_⟩
  have hfits := arr.fits
  have hl := hlr.left
  have hr := hlr.right
  have hne : toSize l ≠ arr.arrSz := by
    unfold toSize
    omega
  rw [binSearchLastOccurrence, bind_ok hout]
  simp only
  rw [if_neg hne]
  rfl

theorem last_spec (h : arr.Sorted) (val : Int32) : ∃ i,
    (binSearchLastOccurrence arr val).out = .ok i ∧
      Answers arr val (IsGreatest (arr.occurrences val)) i := by
  obtain ⟨l, reads, hlr, -, hrun⟩ := last_run h val
  have hl := hlr.left
  have hr := hlr.right
  have hbefore (i : ℤ) (hi : arr.InRange i) (hle : i ≤ l) : arr.memory i ≤ val :=
    Int32.not_lt.mp (of_decide_eq_true (hlr.before i hi hle))
  have hbehind (i : ℤ) (hi : arr.InRange i) (hle : l + 1 ≤ i) : arr.memory i ≠ val :=
    fun heq => of_decide_eq_false (hlr.behind i hi hle) fun hlt =>
      (Int32.ne_of_lt hlt).symm heq
  refine ⟨_, congrArg _ hrun, ?_⟩
  by_cases hrange : arr.InRange l
  · split
    case isTrue hne =>
      refine answers_neg_one fun i hi => ?_
      by_cases hle : i ≤ l
      · have hlt : arr.memory l < val := Int32.lt_of_le_of_ne (hbefore l hrange (le_refl _)) hne
        exact Int32.ne_of_lt (h.lt_of_lt hi hrange hle hlt)
      · exact hbehind i hi (by omega)
    case isFalse heq =>
      have hmem : l ∈ arr.occurrences val := ⟨hrange, not_not.mp heq⟩
      refine answers_of_mem hmem ⟨hmem, fun i hi => ?_⟩
      by_contra hlt
      exact hbehind i hi.1 (by omega) hi.2
  · -- whatever lies before the array, the answer is -1
    have hneg : l = -1 := by
      unfold IntArray.InRange at hrange
      omega
    rw [hneg, ite_self]
    exact answers_neg_one fun i hi => hbehind i hi (by have := hi.1; omega)

/-- The elements 1, 2, 2 and 3. -/
def pairInside : IntArray where
  memory i := if i < 1 then 1 else if i < 3 then 2 else 3
  arrSz := 4
  fits := by decide

theorem sorted_pairInside : pairInside.Sorted := by
  intro i j _ _ hij
  simp only [pairInside]
  split_ifs <;> first | decide | omega

example : (binSearchFirstOccurrence pairInside 2).out.toOption = some 1 := by decide +kernel

example : (binSearchLastOccurrence pairInside 2).out.toOption = some 2 := by decide +kernel

end InterviewQuestions.BinSearch

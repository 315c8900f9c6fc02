import InterviewQuestions.Library.ArrayHeap
import InterviewQuestions.Library.Merging
import Mathlib.Algebra.Order.Ring.Int
import Mathlib.Algebra.Order.Ring.Rat

/-! The running median of `sorting_searching/track_median/solution.cpp`, its vectors
as arrays. Loops carry the number of iterations they can still make as fuel. -/
namespace InterviewQuestions.TrackMedian

def minHeapComparator (n1 n2 : Int32) : Bool := n1 > n2

def maxHeapComparator (n1 n2 : Int32) : Bool := n1 < n2

abbrev Heap := Array Int32

/-- The comparator at two slots. The loops only compare slots inside the vector. -/
def compareAt (comparator : Int32 → Int32 → Bool) (heap : Heap) (i j : ℕ) : Bool :=
  match heap[i]?, heap[j]? with
  | some a, some b => comparator a b
  | _, _ => false

def peek (heap : Heap) : Option Int32 := heap[0]?

def insertHeap (comparator : Int32 → Int32 → Bool) (heap : Heap) (v : Int32) : Heap :=
  let heap := heap.push v
  if heap.size = 1 then heap
  else
    let (heap, parent, curr) := loop heap.size heap (heap.size / 2 - 1) (heap.size - 1)
    if compareAt comparator heap parent curr then heap.swapIfInBounds parent curr else heap
where
  loop : ℕ → Heap → ℕ → ℕ → Heap × ℕ × ℕ
    | 0, heap, parent, curr => (heap, parent, curr)
    | fuel + 1, heap, parent, curr =>
        if parent > 0 ∧ compareAt comparator heap parent curr then
          loop fuel (heap.swapIfInBounds parent curr) ((parent - 1) / 2) parent
        else (heap, parent, curr)

/-- The two tests that `extract` makes before its loop and again in its body. -/
def largestOf (comparator : Int32 → Int32 → Bool) (heap : Heap) (curr : ℕ) : ℕ :=
  let left := (curr + 1) * 2 - 1
  let right := left + 1
  let largest := if left < heap.size ∧ compareAt comparator heap curr left then left else curr
  if right < heap.size ∧ compareAt comparator heap largest right then right else largest

def siftDown (comparator : Int32 → Int32 → Bool) (heap : Heap) : Heap :=
  loop heap.size heap 0 (largestOf comparator heap 0)
where
  loop : ℕ → Heap → ℕ → ℕ → Heap
    | 0, heap, _, _ => heap
    | fuel + 1, heap, curr, largest =>
        if curr ≠ largest then
          let heap := heap.swapIfInBounds curr largest
          loop fuel heap largest (largestOf comparator heap largest)
        else heap

/-- The heap without its root, and the root. Nothing on an empty vector. -/
def extract (comparator : Int32 → Int32 → Bool) (heap : Heap) : Option (Heap × Int32) :=
  match heap[0]?, heap[heap.size - 1]? with
  | some popped, some last =>
      let heap := heap.pop
      if heap.size = 0 then some (heap, popped)
      else some (siftDown comparator (heap.setIfInBounds 0 last), popped)
  | _, _ => none

structure MedianTracker where
  heapL : Heap
  heapR : Heap
deriving DecidableEq, Repr

namespace MedianTracker

def empty : MedianTracker := ⟨#[], #[]⟩

/-- Nothing when a move would take from an empty heap. -/
def balanceHeaps (tracker : MedianTracker) (sizeL sizeR : ℕ) : Option MedianTracker :=
  loop (tracker.heapL.size + sizeL + 1) tracker
where
  loop : ℕ → MedianTracker → Option MedianTracker
    | 0, _ => none
    | fuel + 1, tracker =>
        if tracker.heapL.size ≠ sizeL ∧ tracker.heapR.size ≠ sizeR then
          if tracker.heapL.size > sizeL then do
            let (heapL, v) ← extract maxHeapComparator tracker.heapL
            loop fuel ⟨heapL, insertHeap minHeapComparator tracker.heapR v⟩
          else do
            let (heapR, v) ← extract minHeapComparator tracker.heapR
            loop fuel ⟨insertHeap maxHeapComparator tracker.heapL v, heapR⟩
        else some tracker

/-- The side that a new element goes to. -/
def place (tracker : MedianTracker) (elements : UInt32) (n : Int32) : Option MedianTracker :=
  let left := { tracker with heapL := insertHeap maxHeapComparator tracker.heapL n }
  let right := { tracker with heapR := insertHeap minHeapComparator tracker.heapR n }
  if elements = 0 then some left
  else (peek tracker.heapL).map fun top => if n ≤ top then left else right

def insert (tracker : MedianTracker) (n : Int32) : Option MedianTracker := do
  -- the sizes have 64 bits, their sum is stored in 32
  let elements := UInt32.ofNat (tracker.heapL.size + tracker.heapR.size)
  let tracker ← tracker.place elements n
  let elements := elements + 1
  let sizeR := elements / 2
  let sizeL := if elements &&& 1 ≠ 0 then sizeR + 1 else sizeR
  tracker.balanceHeaps sizeL.toNat sizeR.toNat

/-- A double, where the exact result is a multiple of one half that its 53 bits hold. -/
def double (q : ℚ) : Option ℚ := if (2 * q).den = 1 ∧ |(2 * q).num| ≤ 2 ^ 53 then some q else none

/-- Nothing where `peek` reads an empty vector. -/
def median (tracker : MedianTracker) : Option ℚ :=
  if (tracker.heapL.size + tracker.heapR.size) &&& 1 ≠ 0 then do
    let l ← peek tracker.heapL
    double l.toInt
  else do
    let l ← peek tracker.heapL
    let r ← peek tracker.heapR
    let scaled ← double (r.toInt * 1)
    let sum ← double (l.toInt + scaled)
    double (sum / 2)

/-- The tracker after a sequence of insertions. -/
def insertAll (values : List Int32) : Option MedianTracker := values.foldlM insert empty

end MedianTracker

/-- The middle value in sorted order, or the mean of the middle two. -/
def medianOf (values : List ℤ) : ℚ :=
  let sorted := Library.SortedHalves.sorted values
  let half := values.length / 2
  if values.length % 2 = 1 then (sorted.getD half 0 : ℤ)
  else ((sorted.getD (half - 1) 0 : ℤ) + (sorted.getD half 0 : ℤ)) / 2

/-! Both heaps are a heap in an array, for a key that the comparator compares the
other way round. `insertHeap` adds its value and `extract` takes the root away. -/

open Library Library.HeapOrder Library.ArrayHeap

variable {comparator : Int32 → Int32 → Bool} {key : Int32 → ℤ} {heap : Heap}

def Compares (comparator : Int32 → Int32 → Bool) (key : Int32 → ℤ) : Prop :=
  ∀ a b, comparator a b = decide (key b < key a)

/-- The key of the right heap, least at the root. -/
def ascending (n : Int32) : ℤ := n.toInt

/-- The key of the left heap, whose root is the greatest. -/
def descending (n : Int32) : ℤ := -n.toInt

theorem compares_ascending : Compares minHeapComparator ascending := by
  intro a b
  exact decide_eq_decide.mpr Int32.lt_iff_toInt_lt

theorem compares_descending : Compares maxHeapComparator descending := by
  intro a b
  apply decide_eq_decide.mpr
  rw [Int32.lt_iff_toInt_lt]
  simp only [descending, neg_lt_neg_iff]

theorem compareAt_eq (hcmp : Compares comparator key) (heap : Heap) (i j : ℕ) :
    compareAt comparator heap i j = less key heap j i := by
  unfold compareAt less
  cases heap[i]? with
  | none => cases heap[j]? <;> rfl
  | some a =>
    cases heap[j]? with
    | none => rfl
    | some b => exact hcmp a b

/-! ## Insert -/

/-- The loop that stops below the root and the test after it are one upward sift. -/
theorem insertHeap_loop_eq (hcmp : Compares comparator key) (fuel : ℕ) :
    ∀ (heap : Heap) (curr room : ℕ), 0 < curr → parent curr ≤ fuel → curr ≤ room →
      (let r := insertHeap.loop comparator fuel heap (parent curr) curr
       if compareAt comparator r.1 r.2.1 r.2.2 then r.1.swapIfInBounds r.2.1 r.2.2 else r.1) =
        siftUp.loop key parent room heap curr := by
  induction fuel with
  | zero =>
    intro heap curr room hpos hfuel hroom
    obtain ⟨room, rfl⟩ := Nat.exists_eq_add_one_of_ne_zero (by omega : room ≠ 0)
    have hroot : parent curr = 0 := Nat.le_zero.mp hfuel
    simp only [insertHeap.loop, siftUp.loop, compareAt_eq hcmp, hroot, siftUp_loop_root,
      swapIfInBounds_comm heap 0 curr, hpos.ne', ne_eq, not_false_eq_true, true_and]
  | succ fuel ih =>
    intro heap curr room hpos hfuel hroom
    obtain ⟨room, rfl⟩ := Nat.exists_eq_add_one_of_ne_zero (by omega : room ≠ 0)
    have hlt := parent_lt hpos
    simp only [insertHeap.loop, siftUp.loop, compareAt_eq hcmp] at ih ⊢
    by_cases hless : less key heap curr (parent curr) = true
    · by_cases hroot : parent curr = 0
      · rw [hroot] at hless
        simp [hroot, hless, hpos.ne', swapIfInBounds_comm heap 0 curr]
      · have hup := Nat.pos_of_ne_zero hroot
        have hnext := ih (heap.swapIfInBounds curr (parent curr)) (parent curr) room hup
          (by have := parent_lt hup; omega) (by omega)
        have hparent : (parent curr - 1) / 2 = parent (parent curr) := rfl
        simp only [hless, hup, hpos.ne', hparent, swapIfInBounds_comm heap (parent curr) curr,
          ne_eq, not_false_eq_true, and_self, if_true]
        exact hnext
    · simp [hless]

theorem insertHeap_eq (hcmp : Compares comparator key) (heap : Heap) (v : Int32) :
    insertHeap comparator heap v = ArrayHeap.siftUp key parent (heap.push v) heap.size := by
  unfold insertHeap ArrayHeap.siftUp
  by_cases hempty : heap.size = 0
  · simp [hempty]
  · have hparent : (heap.push v).size / 2 - 1 = parent heap.size := by
      rw [Array.size_push]
      unfold parent
      omega
    have hcurr : (heap.push v).size - 1 = heap.size := by simp
    have hne : (heap.push v).size ≠ 1 := by simpa using hempty
    simp only [hparent, hcurr, if_neg hne]
    apply insertHeap_loop_eq hcmp _ _ _ _ (Nat.pos_of_ne_zero hempty) _ le_rfl
    rw [Array.size_push]
    exact (parent_lt (Nat.pos_of_ne_zero hempty)).le.trans (Nat.le_succ _)

/-- The heap with the key that its comparator stands for. -/
def IsHeap (key : Int32 → ℤ) (heap : Heap) : Prop := Ordered (keyAt key heap) heap.size

theorem insertHeap_perm (hcmp : Compares comparator key) (heap : Heap) (v : Int32) :
    (insertHeap comparator heap v).toList.Perm (v :: heap.toList) := by
  rw [insertHeap_eq hcmp]
  apply (siftUp_perm _ _).trans
  rw [Array.toList_push]
  exact List.perm_append_singleton _ _

theorem insertHeap_isHeap (hcmp : Compares comparator key) (hheap : IsHeap key heap) (v : Int32) :
    IsHeap key (insertHeap comparator heap v) := by
  have hsize : (insertHeap comparator heap v).size = (heap.push v).size := by
    rw [Array.size_push]
    exact (insertHeap_perm hcmp heap v).length_eq
  unfold IsHeap
  rw [hsize, insertHeap_eq hcmp]
  exact siftUp_ordered (by simp) (push_orderedButAbove v hheap)

/-! ## Extract -/

theorem largestOf_eq (hcmp : Compares comparator key) (heap : Heap) (curr : ℕ) :
    largestOf comparator heap curr = smallestOf key heap curr := by
  have hleft : (curr + 1) * 2 - 1 = 2 * curr + 1 := by omega
  simp only [largestOf, smallestOf, compareAt_eq hcmp, hleft]

theorem siftDown_eq (hcmp : Compares comparator key) (heap : Heap) :
    siftDown comparator heap = ArrayHeap.siftDown key heap 0 := by
  suffices hloop : ∀ fuel (heap : Heap) curr,
      siftDown.loop comparator fuel heap curr (smallestOf key heap curr) =
        ArrayHeap.siftDown.loop key fuel heap curr by
    unfold siftDown
    rw [largestOf_eq hcmp]
    exact hloop heap.size heap 0
  intro fuel
  induction fuel with
  | zero => exact fun _ _ => rfl
  | succ fuel ih =>
    intro heap curr
    simp only [siftDown.loop, ArrayHeap.siftDown.loop, largestOf_eq hcmp, ih,
      ne_comm (a := curr)]

/-- Dropping the last slot before the root is overwritten, or after. -/
theorem pop_setRoot (hpos : 0 < heap.size) :
    heap.pop.setIfInBounds 0 heap[heap.size - 1] = (heap.swapIfInBounds 0 (heap.size - 1)).pop := by
  have hlast : heap.size - 1 < heap.size := Nat.sub_lt hpos Nat.one_pos
  apply Array.ext
  · simp
  · intro i hi _
    have hi' : i < heap.size - 1 := by simpa using hi
    rw [Array.getElem_pop]
    by_cases hzero : i = 0
    · subst hzero
      rw [Array.getElem_setIfInBounds_self, Array.getElem_swapIfInBounds_left hlast]
    · rw [Array.getElem_setIfInBounds_ne _ (Ne.symm hzero), Array.getElem_pop,
        Array.getElem_swapIfInBounds_of_ne_of_ne hzero (by omega)]
      rw [Array.size_pop]
      exact hi'

theorem extract_of_pos (hcmp : Compares comparator key) (hpos : 0 < heap.size) :
    extract comparator heap = some (popRoot key heap, heap[0]) := by
  have hlast : heap.size - 1 < heap.size := Nat.sub_lt hpos Nat.one_pos
  unfold extract popRoot
  rw [Array.getElem?_eq_getElem hpos, Array.getElem?_eq_getElem hlast]
  by_cases hone : heap.pop.size = 0
  · have hempty : (heap.swapIfInBounds 0 (heap.size - 1)).pop = heap.pop := by
      apply Array.eq_empty_of_size_eq_zero _ |>.trans (Array.eq_empty_of_size_eq_zero hone).symm
      rw [Array.size_pop] at hone
      simpa using hone
    simp [hone, hempty, ArrayHeap.siftDown, ArrayHeap.siftDown.loop]
  · simp only [hone, if_false, siftDown_eq hcmp, pop_setRoot hpos]

/-- What `extract` leaves is the heap without its root. -/
theorem extract_spec (hcmp : Compares comparator key) (hheap : IsHeap key heap)
    (hpos : 0 < heap.size) :
    ∃ rest, extract comparator heap = some (rest, heap[0]) ∧ IsHeap key rest ∧
      (heap[0] :: rest.toList).Perm heap.toList :=
  ⟨popRoot key heap, extract_of_pos hcmp hpos, popRoot_ordered hheap, popRoot_perm hpos⟩

/-- The root has the least key. -/
theorem root_least (hheap : IsHeap key heap) (hpos : 0 < heap.size) {n : Int32}
    (hmem : n ∈ heap.toList) : key heap[0] ≤ key n :=
  root_le_of_mem hheap hpos hmem

end InterviewQuestions.TrackMedian

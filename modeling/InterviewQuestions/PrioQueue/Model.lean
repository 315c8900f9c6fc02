import InterviewQuestions.Library.ArrayHeap
import InterviewQuestions.Library.Machine
import Mathlib.Algebra.Order.Ring.Int

/-! The heap-based queue of `DS_Algos/prio_queue/priority_queue.cpp`, its vector as
an array. Loops carry the number of iterations they can still make as fuel. -/
namespace InterviewQuestions.PrioQueue

structure PriorityQueueNode (T : Type*) where
  value : Int32
  obj : T
deriving DecidableEq, Repr

variable {T : Type*}

/-- The comparison of two values. The sifts only compare slots inside the vector. -/
def valueLess (heap : Array (PriorityQueueNode T)) (i j : ℕ) : Bool :=
  match heap[i]?, heap[j]? with
  | some a, some b => a.value < b.value
  | _, _ => false

def siftUp (heap : Array (PriorityQueueNode T)) (i : ℕ) : Array (PriorityQueueNode T) :=
  loop i heap i
where
  loop : ℕ → Array (PriorityQueueNode T) → ℕ → Array (PriorityQueueNode T)
    | 0, heap, _ => heap
    | fuel + 1, heap, i =>
        if i ≠ 0 ∧ valueLess heap i (i / 2) then
          loop fuel (heap.swapIfInBounds i (i / 2)) (i / 2)
        else heap

/-- The two tests that `sift_down` makes before its loop and again in its body. -/
def smallestOf (heap : Array (PriorityQueueNode T)) (i : ℕ) : ℕ :=
  let left := 2 * i + 1
  let right := left + 1
  let smallest := if left < heap.size ∧ valueLess heap left i then left else i
  if right < heap.size ∧ valueLess heap right smallest then right else smallest

def siftDown (heap : Array (PriorityQueueNode T)) (i : ℕ) : Array (PriorityQueueNode T) :=
  loop heap.size heap i
where
  loop : ℕ → Array (PriorityQueueNode T) → ℕ → Array (PriorityQueueNode T)
    | 0, heap, _ => heap
    | fuel + 1, heap, i =>
        let smallest := smallestOf heap i
        if smallest ≠ i then loop fuel (heap.swapIfInBounds i smallest) smallest else heap

def enqueue (heap : Array (PriorityQueueNode T)) (val : Int32) (obj : T) :
    Array (PriorityQueueNode T) :=
  siftUp (heap.push ⟨val, obj⟩) heap.size

/-- The queue without its head, and the head. Nothing when the assertion fails. -/
def dequeue (heap : Array (PriorityQueueNode T)) :
    Option (Array (PriorityQueueNode T) × PriorityQueueNode T) :=
  match heap[0]?, heap[heap.size - 1]? with
  | some extracted, some last =>
      let heap := (heap.setIfInBounds 0 last).pop
      some (if heap.size > 0 then siftDown heap 0 else heap, extracted)
  | _, _ => none

def peek (heap : Array (PriorityQueueNode T)) : Option (PriorityQueueNode T) := heap[0]?

inductive Op (T : Type*) where
  | enqueue (val : Int32) (obj : T)
  | dequeue
  | peek
deriving Repr

/-- One call of a client, with the node it reports. -/
def step (heap : Array (PriorityQueueNode T)) :
    Op T → Array (PriorityQueueNode T) × Option (PriorityQueueNode T)
  | .enqueue val obj => (enqueue heap val obj, none)
  | .dequeue =>
      match dequeue heap with
      | some (heap, extracted) => (heap, some extracted)
      | none => (heap, none)
  | .peek => (heap, peek heap)

/-- The assertions of `dequeue` and `peek`. -/
def Callable (heap : Array (PriorityQueueNode T)) : Op T → Prop
  | .enqueue _ _ => True
  | .dequeue => heap.size > 0
  | .peek => heap.size > 0

instance decidableCallable (heap : Array (PriorityQueueNode T)) :
    ∀ op : Op T, Decidable (Callable heap op)
  | .enqueue _ _ => isTrue trivial
  | .dequeue => inferInstanceAs (Decidable (heap.size > 0))
  | .peek => inferInstanceAs (Decidable (heap.size > 0))

end InterviewQuestions.PrioQueue

/-! The sifts of the queue are those of a heap in an array, the upward one with
`i/2` for the next slot. `dequeue` keeps the min-heap and takes its head away. -/
namespace InterviewQuestions.PrioQueue

open Library Library.HeapOrder Library.ArrayHeap

variable {T : Type*} {heap : Array (PriorityQueueNode T)} {i : ℕ}

def priority (node : PriorityQueueNode T) : ℤ := node.value.toInt

theorem valueLess_eq (heap : Array (PriorityQueueNode T)) (i j : ℕ) :
    valueLess heap i j = less priority heap i j := by
  unfold valueLess less
  cases heap[i]? with
  | none => rfl
  | some a =>
    cases heap[j]? with
    | none => rfl
    | some b => exact decide_eq_decide.mpr Int32.lt_iff_toInt_lt

theorem siftUp_eq (heap : Array (PriorityQueueNode T)) (i : ℕ) :
    siftUp heap i = ArrayHeap.siftUp priority (· / 2) heap i := by
  suffices hloop : ∀ fuel (heap : Array (PriorityQueueNode T)) i,
      siftUp.loop fuel heap i = ArrayHeap.siftUp.loop priority (· / 2) fuel heap i from
    hloop i heap i
  intro fuel
  induction fuel with
  | zero => exact fun _ _ => rfl
  | succ fuel ih =>
    intro heap i
    simp only [siftUp.loop, ArrayHeap.siftUp.loop, valueLess_eq, ih]

theorem smallestOf_eq (heap : Array (PriorityQueueNode T)) (i : ℕ) :
    smallestOf heap i = ArrayHeap.smallestOf priority heap i := by
  simp only [smallestOf, ArrayHeap.smallestOf, valueLess_eq]

theorem siftDown_eq (heap : Array (PriorityQueueNode T)) (i : ℕ) :
    siftDown heap i = ArrayHeap.siftDown priority heap i := by
  suffices hloop : ∀ fuel (heap : Array (PriorityQueueNode T)) i,
      siftDown.loop fuel heap i = ArrayHeap.siftDown.loop priority fuel heap i from
    hloop heap.size heap i
  intro fuel
  induction fuel with
  | zero => exact fun _ _ => rfl
  | succ fuel ih =>
    intro heap i
    simp only [siftDown.loop, ArrayHeap.siftDown.loop, smallestOf_eq, ih]

/-- The queue is a min-heap. -/
def IsHeap (heap : Array (PriorityQueueNode T)) : Prop := Ordered (keyAt priority heap) heap.size

/-! ## Dequeue -/

theorem dequeue_of_pos (hpos : 0 < heap.size) :
    dequeue heap = some (popRoot priority heap, heap[0]) := by
  have hlast : heap.size - 1 < heap.size := Nat.sub_lt hpos Nat.one_pos
  have hpop : (heap.setIfInBounds 0 heap[heap.size - 1]).pop =
      (heap.swapIfInBounds 0 (heap.size - 1)).pop := by
    apply Array.ext
    · simp
    · intro i hi _
      have hi' : i < heap.size - 1 := by simpa using hi
      simp only [Array.getElem_pop]
      by_cases hzero : i = 0
      · subst hzero
        rw [Array.getElem_setIfInBounds_self, Array.getElem_swapIfInBounds_left hlast]
      · rw [Array.getElem_setIfInBounds_ne (by omega) (Ne.symm hzero),
          Array.getElem_swapIfInBounds_of_ne_of_ne hzero (by omega)]
  unfold dequeue popRoot
  rw [Array.getElem?_eq_getElem hpos, Array.getElem?_eq_getElem hlast]
  simp only [hpop]
  split
  · rw [siftDown_eq]
  · rename_i hempty
    rw [ArrayHeap.siftDown, Nat.eq_zero_of_not_pos hempty, ArrayHeap.siftDown.loop]

/-! ## Enqueue -/

theorem enqueue_perm (heap : Array (PriorityQueueNode T)) (val : Int32) (obj : T) :
    (enqueue heap val obj).toList.Perm (⟨val, obj⟩ :: heap.toList) := by
  unfold enqueue
  rw [siftUp_eq]
  apply (siftUp_perm _ _).trans
  rw [Array.toList_push]
  exact List.perm_append_singleton _ _

end InterviewQuestions.PrioQueue

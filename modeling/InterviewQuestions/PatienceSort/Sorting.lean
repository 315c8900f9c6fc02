import InterviewQuestions.Library.ArrayHeap
import InterviewQuestions.Library.Bisection
import InterviewQuestions.Library.CountingLoop
import InterviewQuestions.Library.Patience
import InterviewQuestions.Library.Rearrangement
import Mathlib.Algebra.Order.Ring.Int

/-! `sorting/patiencesort/patiencesort.cpp`. There is no result where an index is out of range, a
value of the type `int` is too large, or the fuel does not last for a loop. -/
namespace InterviewQuestions.PatienceSort

open Library

/-- The first element of a pile is the one at the bottom. -/
abbrev Piles := List (List ℤ)

/-- `piles[i][piles[i].size()-1]` -/
def top (piles : Piles) (i : ℕ) : Option ℤ := do
  let pile ← piles[i]?
  pile[pile.length - 1]?

/-! ## `PriorityQueue` -/

abbrev Heap := Array ℕ

/-- `PatienceSortCmp` at two slots. -/
def cmp (piles : Piles) (minHeap : Heap) (i j : ℕ) : Option Bool := do
  let x ← top piles (← minHeap[i]?)
  let y ← top piles (← minHeap[j]?)
  return x < y

/-- `if (child < min_heap.size() && cmp(min_heap[child], min_heap[smallest])) smallest = child;` -/
def smaller (piles : Piles) (minHeap : Heap) (child smallest : ℕ) : Option ℕ := do
  if child < minHeap.size then
    let less ← cmp piles minHeap child smallest
    return if less then child else smallest
  else return smallest

/-- `smallest`, as `sift_down` computes it before its loop and at the end of each round. -/
def smallestOf (piles : Piles) (minHeap : Heap) (curr : ℕ) : Option ℕ := do
  let left := curr * 2 + 1
  let right := left + 1
  smaller piles minHeap right (← smaller piles minHeap left curr)

def siftDown (piles : Piles) (minHeap : Heap) (curr : ℕ) : Option Heap := do
  loop (minHeap.size + 1) minHeap curr (← smallestOf piles minHeap curr)
where
  loop : ℕ → Heap → ℕ → ℕ → Option Heap
    | 0, _, _, _ => none
    | fuel + 1, minHeap, curr, smallest =>
        if curr ≠ smallest then do
          let minHeap := minHeap.swapIfInBounds curr smallest
          loop fuel minHeap smallest (← smallestOf piles minHeap smallest)
        else some minHeap

/-- The condition of the loop of `sift_up`. The parent of the root is not looked at. -/
def rises (piles : Piles) (minHeap : Heap) (curr parent : ℕ) : Option Bool :=
  if curr ≠ 0 then cmp piles minHeap curr parent else some false

def siftUp (piles : Piles) (minHeap : Heap) (curr : ℕ) : Option Heap :=
  loop (curr + 1) minHeap curr
where
  loop : ℕ → Heap → ℕ → Option Heap
    | 0, _, _ => none
    | fuel + 1, minHeap, curr => do
        let parent := (curr + 1) / 2 - 1
        if ← rises piles minHeap curr parent then
          loop fuel (minHeap.swapIfInBounds curr parent) parent
        else some minHeap

def extractMin (piles : Piles) (minHeap : Heap) : Option (ℕ × Heap) := do
  let ret ← minHeap[0]?
  let minHeap := (minHeap.swapIfInBounds 0 (minHeap.size - 1)).pop
  return (ret, ← siftDown piles minHeap 0)

def insert (piles : Piles) (minHeap : Heap) (elem : ℕ) : Option Heap :=
  let minHeap := minHeap.push elem
  siftUp piles minHeap (minHeap.size - 1)

/-! ## `patience_sort` -/

def findPile (piles : Piles) (value : ℤ) : Option ℕ :=
  Bisection.upperBound piles.length fun m => (top piles m).map (· ≤ value)

/-- The body of the first loop. -/
def insertElement (piles : Piles) (value : ℤ) : Option Piles := do
  let pileIdx ← findPile piles value
  let piles := if pileIdx = piles.length then piles ++ [[]] else piles
  let pile ← piles[pileIdx]?
  return piles.set pileIdx (pile ++ [value])

structure Merge where
  piles : Piles
  queue : Heap
  array : List ℤ

/-- The pile goes back into the queue unless it is empty. -/
def putBack (piles : Piles) (queue : Heap) (pileI : ℕ) : Option Heap := do
  let pile ← piles[pileI]?
  if pile.length > 0 then insert piles queue pileI else some queue

/-- The body of the last loop. -/
def mergeOne (s : Merge) (i : ℕ) : Option Merge := do
  let (pileI, queue) ← extractMin s.piles s.queue
  let value ← top s.piles pileI
  let array := s.array.set i value
  let pile ← s.piles[pileI]?
  let piles := s.piles.set pileI pile.dropLast
  return { piles := piles, queue := ← putBack piles queue pileI, array := array }

def patienceSort (array : List ℤ) : Option (List ℤ) := do
  let piles ← array.foldlM insertElement []
  let queue ← (List.range' 0 piles.length).foldlM (insert piles) #[]
  let s ← (List.range' 0 array.length).foldlM mergeOne ⟨piles, queue, array⟩
  return s.array

/-! The queue is a heap in an array, and the key of a pile is what is on its top. -/

open Library Library.HeapOrder Library.ArrayHeap

variable {piles piles' : Piles} {h : Heap} {curr smallest child : ℕ}

def topKey (piles : Piles) (i : ℕ) : ℤ := (top piles i).getD 0

theorem topKey_of_top {i : ℕ} {x : ℤ} (hx : top piles i = some x) : topKey piles i = x := by
  rw [topKey, hx]
  rfl

/-- The piles in the queue are not empty. -/
def Live (piles : Piles) (h : Heap) : Prop := ∀ i ∈ h.toList, ∃ x, top piles i = some x

theorem Live.perm {h' : Heap} (hlive : Live piles h) (hperm : h'.toList.Perm h.toList) :
    Live piles h' := fun i hi => hlive i (hperm.mem_iff.mp hi)

theorem Live.swap (hlive : Live piles h) (i j : ℕ) : Live piles (h.swapIfInBounds i j) :=
  hlive.perm (swapIfInBounds_perm h i j)

theorem cmp_eq (hlive : Live piles h) {i j : ℕ} (hi : i < h.size) (hj : j < h.size) :
    cmp piles h i j = some (less (topKey piles) h i j) := by
  obtain ⟨x, hx⟩ := hlive h[i] (Array.getElem_mem_toList hi)
  obtain ⟨y, hy⟩ := hlive h[j] (Array.getElem_mem_toList hj)
  unfold cmp less
  rw [Array.getElem?_eq_getElem hi, Array.getElem?_eq_getElem hj]
  simp only [Option.bind_eq_bind, Option.bind_some, hx, hy, topKey_of_top hx, topKey_of_top hy]
  rfl

/-! ## Down -/

theorem smaller_eq (hlive : Live piles h) (hs : child < h.size → smallest < h.size) :
    smaller piles h child smallest =
      some (if child < h.size ∧ less (topKey piles) h child smallest then child else smallest) := by
  unfold smaller
  by_cases hc : child < h.size
  · rw [if_pos hc, cmp_eq hlive hc (hs hc), Option.bind_eq_bind, Option.bind_some]
    simp only [hc, true_and]
    rfl
  · rw [if_neg hc, if_neg fun hand => hc hand.1]
    rfl

theorem smallestOf_eq (hlive : Live piles h) (curr : ℕ) :
    PatienceSort.smallestOf piles h curr = some (ArrayHeap.smallestOf (topKey piles) h curr) := by
  have hleft := @smaller_eq piles h curr (2 * curr + 1) hlive (by omega)
  have hright := @smaller_eq piles h
    (if 2 * curr + 1 < h.size ∧ less (topKey piles) h (2 * curr + 1) curr then 2 * curr + 1
      else curr) (2 * curr + 1 + 1) hlive (by split <;> omega)
  simp only [PatienceSort.smallestOf, ArrayHeap.smallestOf, Nat.mul_comm curr 2, hleft,
    Option.bind_eq_bind, Option.bind_some]
  exact hright

theorem siftDown_loop_eq (fuel : ℕ) (hlive : Live piles h) (hfuel : h.size - curr ≤ fuel) :
    PatienceSort.siftDown.loop piles (fuel + 1) h curr
        (ArrayHeap.smallestOf (topKey piles) h curr) =
      some (ArrayHeap.siftDown.loop (topKey piles) fuel h curr) := by
  induction fuel generalizing h curr with
  | zero =>
    have hstay : ArrayHeap.smallestOf (topKey piles) h curr = curr := by
      unfold ArrayHeap.smallestOf
      simp only
      rw [if_neg (by omega), if_neg (by omega)]
    rw [PatienceSort.siftDown.loop, hstay, if_neg (not_not_intro rfl)]
    rfl
  | succ fuel ih =>
    rw [PatienceSort.siftDown.loop, ArrayHeap.siftDown.loop]
    by_cases hne : curr = ArrayHeap.smallestOf (topKey piles) h curr
    · rw [if_neg (not_not_intro hne), if_neg (not_not_intro hne.symm)]
    · have hcurr : curr < h.size := by
        by_contra hnot
        apply hne
        unfold ArrayHeap.smallestOf
        simp only
        rw [if_neg (by omega), if_neg (by omega)]
      have hnext : curr < ArrayHeap.smallestOf (topKey piles) h curr := by
        rcases smallestOf_spec (topKey piles) hcurr with ⟨hstay, -⟩ | ⟨-, hgt, -⟩
        · exact absurd hstay.symm hne
        · exact hgt
      rw [if_pos hne, if_pos (Ne.symm hne)]
      simp only
      rw [smallestOf_eq (hlive.swap _ _), Option.bind_eq_bind,
        Option.bind_some]
      apply ih (hlive.swap _ _)
      rw [Array.size_swapIfInBounds]
      omega

theorem siftDown_eq (hlive : Live piles h) (curr : ℕ) :
    PatienceSort.siftDown piles h curr = some (ArrayHeap.siftDown (topKey piles) h curr) := by
  unfold PatienceSort.siftDown
  rw [smallestOf_eq hlive, Option.bind_eq_bind, Option.bind_some]
  exact siftDown_loop_eq h.size hlive (Nat.sub_le _ _)

/-! ## Up -/

theorem siftUp_loop_eq (fuel : ℕ) (hlive : Live piles h) (hcurr : curr < h.size)
    (hfuel : curr ≤ fuel) :
    PatienceSort.siftUp.loop piles (fuel + 1) h curr =
      some (ArrayHeap.siftUp.loop (topKey piles) parent fuel h curr) := by
  induction fuel generalizing h curr with
  | zero =>
    obtain rfl := Nat.le_zero.mp hfuel
    rfl
  | succ fuel ih =>
    rw [PatienceSort.siftUp.loop, ArrayHeap.siftUp.loop]
    simp only [rises]
    by_cases hzero : curr = 0
    · rw [if_neg (not_not_intro hzero), if_neg fun hand => hand.1 hzero]
      rfl
    · have hparent : (curr + 1) / 2 - 1 = parent curr := by
        unfold parent
        omega
      have hlt := parent_lt (Nat.pos_of_ne_zero hzero)
      rw [if_pos hzero, hparent, cmp_eq hlive hcurr (hlt.trans hcurr), Option.bind_eq_bind,
        Option.bind_some]
      by_cases hless : less (topKey piles) h curr (parent curr) = true
      · rw [if_pos hless, if_pos ⟨hzero, hless⟩]
        apply ih (hlive.swap _ _) _ (by omega)
        rw [Array.size_swapIfInBounds]
        exact hlt.trans hcurr
      · rw [if_neg hless, if_neg fun hand => hless hand.2]

/-! ## The queue -/

structure Queue (piles : Piles) (h : Heap) : Prop where
  live : Live piles h
  ordered : Ordered (keyAt (topKey piles) h) h.size

theorem queue_empty (piles : Piles) : Queue piles #[] where
  live _ hi := absurd hi List.not_mem_nil
  ordered i _ hi := absurd hi (Nat.not_lt_zero i)

theorem insert_spec (hq : Queue piles h) {elem : ℕ} {x : ℤ} (hx : top piles elem = some x) :
    ∃ h', insert piles h elem = some h' ∧ Queue piles h' ∧ h'.toList.Perm (elem :: h.toList) := by
  have hlive : Live piles (h.push elem) := by
    intro i hi
    rw [Array.toList_push, List.mem_append] at hi
    rcases hi with hi | hi
    · exact hq.live i hi
    · rw [List.mem_singleton.mp hi]
      exact ⟨x, hx⟩
  have hlast : (h.push elem).size - 1 = h.size := by rw [Array.size_push, Nat.add_sub_cancel]
  have hperm : (ArrayHeap.siftUp (topKey piles) parent (h.push elem) h.size).toList.Perm
      (h.push elem).toList := siftUp_perm _ _
  have hsize : (ArrayHeap.siftUp (topKey piles) parent (h.push elem) h.size).size =
      (h.push elem).size := hperm.length_eq
  refine ⟨ArrayHeap.siftUp (topKey piles) parent (h.push elem) h.size, ?_, ⟨?_, ?_⟩, ?_⟩
  · simp only [insert, PatienceSort.siftUp, hlast]
    exact siftUp_loop_eq h.size hlive (by simp) le_rfl
  · exact hlive.perm hperm
  · rw [hsize]
    exact siftUp_ordered (by simp) (push_orderedButAbove elem hq.ordered)
  · rw [Array.toList_push] at hperm
    exact hperm.trans (List.perm_append_singleton elem h.toList)

theorem extractMin_spec (hq : Queue piles h) (hpos : 0 < h.size) :
    ∃ root h', extractMin piles h = some (root, h') ∧ (root :: h'.toList).Perm h.toList ∧
      Queue piles h' ∧ ∀ i ∈ h.toList, topKey piles root ≤ topKey piles i := by
  have hperm : (h[0] :: (popRoot (topKey piles) h).toList).Perm h.toList := popRoot_perm hpos
  have hlive : Live piles (popRoot (topKey piles) h) := by
    intro i hi
    exact hq.live i (hperm.mem_iff.mp (List.mem_cons_of_mem _ hi))
  have hlive' : Live piles (h.swapIfInBounds 0 (h.size - 1)).pop :=
    hlive.perm (siftDown_perm (topKey piles) _ 0).symm
  refine ⟨h[0], popRoot (topKey piles) h, ?_, hperm, ⟨hlive, popRoot_ordered hq.ordered⟩,
    fun i hi => root_le_of_mem hq.ordered hpos hi⟩
  unfold extractMin
  rw [Array.getElem?_eq_getElem hpos]
  simp only [Option.bind_eq_bind, Option.bind_some, siftDown_eq hlive']
  rfl

/-- What happens to other piles does not matter. -/
theorem Queue.congr (hq : Queue piles h) (htop : ∀ i ∈ h.toList, top piles' i = top piles i) :
    Queue piles' h where
  live i hi := by
    rw [htop i hi]
    exact hq.live i hi
  ordered := by
    have hkey {i : ℕ} (hi : i < h.size) : keyAt (topKey piles') h i = keyAt (topKey piles) h i := by
      rw [keyAt_of_lt hi, keyAt_of_lt hi, topKey, topKey, htop _ (Array.getElem_mem_toList hi)]
    intro i hpos hi
    rw [hkey hi, hkey ((parent_lt hpos).trans hi)]
    exact hq.ordered i hpos hi

end InterviewQuestions.PatienceSort

/-! `patience_sort` sorts, unless there are too many piles for the binary search. -/
namespace InterviewQuestions.PatienceSort

open Library

variable {piles : Piles} {xs array : List ℤ} {i : ℕ} {v : ℤ}

theorem top_of_pile {pile : List ℤ} (h : piles[i]? = some pile) :
    top piles i = pile[pile.length - 1]? := by
  unfold top
  rw [h]
  rfl

theorem top_concat {init : List ℤ} (h : piles[i]? = some (init ++ [v])) : top piles i = some v := by
  rw [top_of_pile h, List.length_append, List.length_singleton, Nat.add_sub_cancel,
    List.getElem?_concat_length]

/-- A pile as long as there is something on its top. -/
theorem exists_concat {x : ℤ} (h : top piles i = some x) :
    ∃ init, piles[i]? = some (init ++ [x]) := by
  obtain ⟨pile, hpile, hx⟩ := Option.bind_eq_some_iff.mp h
  rcases List.eq_nil_or_concat pile with rfl | ⟨init, last, rfl⟩
  · cases hx
  · rw [List.concat_eq_append, List.length_append, List.length_singleton, Nat.add_sub_cancel,
      List.getElem?_concat_length] at hx
    exact ⟨init, by rw [hpile, List.concat_eq_append, Option.some.inj hx]⟩

/-- No entry is greater than one below it. -/
def Descending (pile : List ℤ) : Prop := pile.Pairwise fun lower upper => upper ≤ lower

theorem Descending.le_of_mem {init : List ℤ} (h : Descending (init ++ [v])) :
    ∀ x ∈ init ++ [v], v ≤ x := by
  intro x hx
  rcases List.mem_append.mp hx with hx | hx
  · exact (List.pairwise_append.mp h).2.2 x hx v (List.mem_singleton_self v)
  · rw [List.mem_singleton.mp hx]

theorem Descending.push {pile : List ℤ} (h : Descending pile) (hle : ∀ x ∈ pile, v ≤ x) :
    Descending (pile ++ [v]) := Patience.pairwise_concat h hle

/-! ## The piles -/

structure Holds (xs : List ℤ) (piles : Piles) : Prop where
  length : piles.length = (Patience.tops xs).length
  top : ∀ k, top piles k = (Patience.tops xs)[k]?
  descending : ∀ pile ∈ piles, Descending pile
  perm : piles.flatten.Perm xs

theorem Holds.findPile_eq (h : Holds xs piles) (v : ℤ) (hsize : piles.length + 1 < 2 ^ 31) :
    findPile piles v = some (Patience.slot (Patience.tops xs) v) := by
  apply Bisection.upperBound_eq_some _ (h.length ▸ Patience.slot_le _ v) hsize
  intro m hm
  have ht := List.getElem?_eq_getElem (h.length ▸ hm)
  rw [h.top m, ht, Option.map_some]
  exact congrArg some (decide_eq_decide.mpr ((Patience.ascending_tops xs).le_iff ht))

/-- One more entry on a pile. -/
theorem flatten_push (piles : Piles) (v : ℤ) (hi : i ≤ piles.length) :
    ((if i = piles.length then piles ++ [[]] else piles).set i
      (piles[i]?.getD [] ++ [v])).flatten.Perm (piles.flatten ++ [v]) := by
  by_cases hnew : i = piles.length
  · rw [if_pos hnew, hnew, List.getElem?_eq_none (Nat.le_refl _)]
    rw [set_append_cons]
    simp
  · obtain ⟨front, back, hsplit, hlen⟩ :=
      exists_append_cons (List.getElem?_eq_getElem (show i < piles.length by omega))
    rw [if_neg hnew, List.getElem?_eq_getElem (show i < piles.length by omega), Option.getD_some]
    generalize piles[i] = pile at hsplit
    rw [hsplit, ← hlen, set_append_cons]
    simp only [List.flatten_append, List.flatten_cons, List.append_assoc]
    exact ((List.perm_append_comm).append_left pile).append_left front.flatten

/-- What is on top of the pile that `v` goes on is greater, and what is below is not smaller. -/
theorem Holds.descending_push (h : Holds xs piles) (v : ℤ) :
    Descending (piles[Patience.slot (Patience.tops xs) v]?.getD [] ++ [v]) := by
  cases hpile : piles[Patience.slot (Patience.tops xs) v]? with
  | none => exact List.pairwise_singleton _ v
  | some old =>
    have hlt := (List.getElem?_eq_some_iff.mp hpile).1
    have ht := List.getElem?_eq_getElem (h.length ▸ hlt)
    have htop := h.top (Patience.slot (Patience.tops xs) v)
    rw [ht] at htop
    obtain ⟨init, hinit⟩ := exists_concat htop
    obtain rfl := Option.some.inj (hpile.symm.trans hinit)
    have hdesc := h.descending _ (List.mem_of_getElem? hpile)
    have hvt := le_of_lt (Patience.lt_of_slot_eq ht)
    exact hdesc.push fun x hx => le_trans hvt (hdesc.le_of_mem x hx)

theorem insertElement_spec (h : Holds xs piles) (v : ℤ) (hsize : piles.length + 1 < 2 ^ 31) :
    ∃ piles', insertElement piles v = some piles' ∧ Holds (xs ++ [v]) piles' := by
  have hle : Patience.slot (Patience.tops xs) v ≤ piles.length :=
    h.length ▸ Patience.slot_le _ v
  have hinsert : insertElement piles v =
      some ((if Patience.slot (Patience.tops xs) v = piles.length then piles ++ [[]] else piles).set
        (Patience.slot (Patience.tops xs) v)
        (piles[Patience.slot (Patience.tops xs) v]?.getD [] ++ [v])) := by
    unfold insertElement
    simp only [h.findPile_eq v hsize, Option.bind_eq_bind, Option.bind_some,
      Patience.open_getElem? piles hle]
    rfl
  refine ⟨_, hinsert, ?_, ?_, ?_, (flatten_push piles v hle).trans (h.perm.append_right [v])⟩
  · exact Patience.length_push h.length v _
  · intro k
    apply Patience.top_push (f := fun pile => pile.bind fun pile => pile[pile.length - 1]?)
      h.length h.top
    rw [Option.bind_some, List.length_append, List.length_singleton, Nat.add_sub_cancel,
      List.getElem?_concat_length]
  · intro pile hpile
    obtain ⟨k, hk⟩ := List.mem_iff_getElem?.mp hpile
    rw [Patience.set_open_getElem? piles _ hle] at hk
    split at hk
    · rw [← Option.some.inj hk]
      exact h.descending_push v
    · exact h.descending pile (List.mem_of_getElem? hk)

theorem insertElement_eq_none (v : ℤ) (hsize : piles.length + 1 = 2 ^ 31) :
    insertElement piles v = none := by
  unfold insertElement findPile
  rw [Bisection.upperBound_eq_none _ hsize]
  rfl

theorem insertAll_spec (array : List ℤ) :
    ((Patience.tops array.dropLast).length < 2 ^ 31 - 1 →
      ∃ piles, array.foldlM insertElement [] = some piles ∧ Holds array piles) ∧
    (2 ^ 31 - 1 ≤ (Patience.tops array.dropLast).length →
      array.foldlM insertElement [] = none) := by
  apply Patience.foldlM_tops Holds (by decide)
  · exact ⟨rfl, fun _ => rfl, fun pile hpile => absurd hpile List.not_mem_nil, .nil⟩
  · intro xs piles v hholds hlt
    exact insertElement_spec hholds v (by rw [hholds.length]; omega)
  · intro xs piles v hholds hlimit
    exact insertElement_eq_none v (by rw [hholds.length]; omega)

/-! ## The merge -/

/-- The queue holds every pile that is not empty once. -/
structure Queued (piles : Piles) (queue : Heap) : Prop where
  heap : Queue piles queue
  nodup : queue.toList.Nodup
  mem_iff : ∀ j, j ∈ queue.toList ↔ ∃ x, top piles j = some x

theorem Holds.build_queue (h : Holds xs piles) :
    ∃ queue, (List.range' 0 piles.length).foldlM (insert piles) #[] = some queue ∧
      Queued piles queue := by
  have htop {j : ℕ} (hj : j < piles.length) : ∃ x, PatienceSort.top piles j = some x := by
    rw [h.top j, List.getElem?_eq_getElem (h.length ▸ hj)]
    exact ⟨_, rfl⟩
  apply foldlM_range'_spec fun n queue => Queue piles queue ∧ queue.toList.Perm (List.range n)
  · intro n queue _ hn hinv
    obtain ⟨x, hx⟩ := htop (show n < piles.length by omega)
    obtain ⟨queue', hinsert, hqueue, hperm⟩ := insert_spec hinv.1 hx
    refine ⟨queue', hinsert, hqueue, hperm.trans ?_⟩
    rw [List.range_succ]
    exact (hinv.2.cons n).trans (List.perm_append_singleton n _).symm
  · exact ⟨queue_empty piles, .nil⟩
  · rintro queue ⟨hqueue, hperm⟩
    rw [Nat.zero_add] at hperm
    refine ⟨hqueue, hperm.nodup_iff.mpr List.nodup_range, fun j => ?_⟩
    rw [hperm.mem_iff, List.mem_range]
    refine ⟨htop, fun ⟨x, hx⟩ => ?_⟩
    obtain ⟨init, hinit⟩ := exists_concat hx
    exact (List.getElem?_eq_some_iff.mp hinit).1

/-- The pile that comes out of the queue has the least entry of all on its top. -/
theorem Queued.extract {queue : Heap} (h : Queued piles queue)
    (hdesc : ∀ pile ∈ piles, Descending pile) (hne : piles.flatten ≠ []) :
    ∃ root queue' init v, extractMin piles queue = some (root, queue') ∧
      (root :: queue'.toList).Perm queue.toList ∧ Queue piles queue' ∧
      piles[root]? = some (init ++ [v]) ∧ ∀ y ∈ piles.flatten, v ≤ y := by
  have hmem {y : ℤ} (hy : y ∈ piles.flatten) :
      ∃ j x, j ∈ queue.toList ∧ top piles j = some x ∧ x ≤ y := by
    obtain ⟨pile, hpile, hy⟩ := List.mem_flatten.mp hy
    obtain ⟨j, hj⟩ := List.mem_iff_getElem?.mp hpile
    rcases List.eq_nil_or_concat pile with rfl | ⟨init, x, rfl⟩
    · cases hy
    · rw [List.concat_eq_append] at hpile hy hj
      have hx := top_concat hj
      exact ⟨j, x, (h.mem_iff j).mpr ⟨x, hx⟩, hx, (hdesc _ hpile).le_of_mem y hy⟩
  obtain ⟨y, hy⟩ := List.exists_mem_of_ne_nil _ hne
  obtain ⟨j, -, hj, -⟩ := hmem hy
  obtain ⟨root, queue', hextract, hperm, hqueue', hleast⟩ :=
    extractMin_spec h.heap (List.length_pos_of_mem hj)
  obtain ⟨v, hv⟩ := (h.mem_iff root).mp (hperm.mem_iff.mp List.mem_cons_self)
  obtain ⟨init, hinit⟩ := exists_concat hv
  refine ⟨root, queue', init, v, hextract, hperm, hqueue', hinit, fun y hy => ?_⟩
  obtain ⟨j, x, hj, hx, hle⟩ := hmem hy
  have hkey := hleast j hj
  rw [topKey_of_top hv, topKey_of_top hx] at hkey
  exact hkey.trans hle

theorem flatten_pop {init : List ℤ} (h : piles[i]? = some (init ++ [v])) :
    (v :: (piles.set i init).flatten).Perm piles.flatten := by
  obtain ⟨front, back, rfl, rfl⟩ := exists_append_cons h
  rw [set_append_cons]
  simp only [List.flatten_append, List.flatten_cons, List.append_assoc]
  calc (v :: (front.flatten ++ (init ++ back.flatten))).Perm
        (front.flatten ++ v :: (init ++ back.flatten)) := List.perm_middle.symm
    _ |>.Perm (front.flatten ++ (init ++ ([v] ++ back.flatten))) :=
        List.perm_middle.symm.append_left front.flatten

/-- The pile without its top goes back into the queue, unless nothing is left of it. -/
theorem Queued.putBack {queue queue' : Heap} {root : ℕ} {init : List ℤ} (h : Queued piles queue)
    (hperm : (root :: queue'.toList).Perm queue.toList) (hqueue' : Queue piles queue')
    (hroot : piles[root]? = some (init ++ [v])) :
    ∃ queue'', PatienceSort.putBack (piles.set root init) queue' root = some queue'' ∧
      Queued (piles.set root init) queue'' := by
  have hnodup := hperm.nodup_iff.mpr h.nodup
  rw [List.nodup_cons] at hnodup
  have hbound := (List.getElem?_eq_some_iff.mp hroot).1
  have hself : (piles.set root init)[root]? = some init := List.getElem?_set_self hbound
  have hother {j : ℕ} (hj : j ≠ root) : top (piles.set root init) j = top piles j := by
    unfold top
    rw [List.getElem?_set_ne hj.symm]
  have hqueue : Queue (piles.set root init) queue' := by
    apply hqueue'.congr
    exact fun j hj => hother fun heq => hnodup.1 (heq ▸ hj)
  have hmem {j : ℕ} (hj : j ≠ root) :
      j ∈ queue'.toList ↔ ∃ x, top (piles.set root init) j = some x := by
    rw [hother hj, ← h.mem_iff j, ← hperm.mem_iff, List.mem_cons, or_iff_right hj]
  unfold PatienceSort.putBack
  rw [hself, Option.bind_eq_bind, Option.bind_some]
  rcases List.eq_nil_or_concat init with rfl | ⟨init, w, rfl⟩
  · refine ⟨queue', rfl, hqueue, hnodup.2, fun j => ?_⟩
    by_cases hj : j = root
    · refine iff_of_false (fun hin => hnodup.1 (hj ▸ hin)) ?_
      rintro ⟨x, hx⟩
      rw [hj, top_of_pile hself] at hx
      cases hx
    · exact hmem hj
  · rw [List.concat_eq_append] at hself hqueue hmem hother ⊢
    have hw := top_concat hself
    obtain ⟨queue'', hinsert, hqueue'', hperm'⟩ := insert_spec hqueue hw
    rw [if_pos (by simp)]
    refine ⟨queue'', hinsert, hqueue'', hperm'.nodup_iff.mpr (List.nodup_cons.mpr hnodup),
      fun j => ?_⟩
    rw [hperm'.mem_iff, List.mem_cons]
    by_cases hj : j = root
    · exact iff_of_true (.inl hj) ⟨w, hj ▸ hw⟩
    · rw [or_iff_right hj]
      exact hmem hj

/-- The array up to `i` is done, and what belongs behind is in the piles. -/
structure Merging (array : List ℤ) (i : ℕ) (s : Merge) : Prop where
  descending : ∀ pile ∈ s.piles, Descending pile
  queued : Queued s.piles s.queue
  done : ∃ out rest, s.array = out ++ rest ∧ out.length = i ∧ s.array.length = array.length ∧
    out.Pairwise (· ≤ ·) ∧ (∀ x ∈ out, ∀ y ∈ s.piles.flatten, x ≤ y) ∧
    (out ++ s.piles.flatten).Perm array

theorem mergeOne_spec {s : Merge} (h : Merging array i s) (hi : i < array.length) :
    ∃ s', mergeOne s i = some s' ∧ Merging array (i + 1) s' := by
  obtain ⟨out, rest, harray, rfl, hlen, hsorted, hle, hperm⟩ := h.done
  have hne : s.piles.flatten ≠ [] := by
    intro hnil
    have htotal := hperm.length_eq
    rw [hnil, List.append_nil] at htotal
    omega
  obtain ⟨root, queue', init, v, hextract, hqueue, hqueue', hroot, hleast⟩ :=
    h.queued.extract h.descending hne
  obtain ⟨queue'', hput, hqueued⟩ := h.queued.putBack hqueue hqueue' hroot
  obtain ⟨x, rest, rfl⟩ : ∃ x rest', rest = x :: rest' := by
    apply List.exists_cons_of_length_pos
    rw [harray, List.length_append] at hlen
    omega
  have hpop := flatten_pop hroot
  have hset : s.array.set out.length v = (out ++ [v]) ++ rest := by
    rw [harray, set_append_cons]
    simp
  refine ⟨⟨s.piles.set root init, queue'', s.array.set out.length v⟩, ?_, ?_, hqueued, ?_⟩
  · unfold mergeOne
    simp only [hextract, top_concat hroot, hroot, List.dropLast_concat, hput, Option.bind_eq_bind,
      Option.bind_some]
    rfl
  · intro pile hpile
    rcases List.mem_or_eq_of_mem_set hpile with hold | rfl
    · exact h.descending pile hold
    · exact (h.descending _ (List.mem_of_getElem? hroot)).sublist (List.sublist_append_left _ _)
  · refine ⟨out ++ [v], rest, hset, ?_, ?_, ?_, ?_, ?_⟩
    · rw [List.length_append, List.length_singleton]
    · rw [List.length_set, hlen]
    · rw [List.pairwise_append]
      refine ⟨hsorted, List.pairwise_singleton _ _, fun x hx y hy => ?_⟩
      rw [List.mem_singleton.mp hy]
      exact hle x hx v (hpop.mem_iff.mp List.mem_cons_self)
    · intro x hx y hy
      have hy' := hpop.mem_iff.mp (List.mem_cons_of_mem v hy)
      rcases List.mem_append.mp hx with hx | hx
      · exact hle x hx y hy'
      · rw [List.mem_singleton.mp hx]
        exact hleast y hy'
    · rw [List.append_assoc, List.singleton_append]
      exact (hpop.append_left out).trans hperm

/-! ## `patience_sort` -/

def Sorts (array : List ℤ) : Prop :=
  ∃ sorted, patienceSort array = some sorted ∧ sorted.Pairwise (· ≤ ·) ∧ sorted.Perm array

theorem Holds.patienceSort_spec (h : Holds array piles)
    (hinsert : array.foldlM insertElement [] = some piles) : Sorts array := by
  obtain ⟨queue, hbuild, hqueued⟩ := h.build_queue
  have hstart : Merging array 0 ⟨piles, queue, array⟩ :=
    ⟨h.descending, hqueued, [], array, rfl, rfl, rfl, .nil,
      fun x hx => absurd hx List.not_mem_nil, h.perm⟩
  have hloop : ∃ s, (List.range' 0 array.length).foldlM mergeOne ⟨piles, queue, array⟩ = some s ∧
      Merging array array.length s := by
    apply foldlM_range'_spec (Merging array)
    · exact fun i s _ hi hinv => mergeOne_spec hinv (by omega)
    · exact hstart
    · intro s hs
      rwa [Nat.zero_add] at hs
  obtain ⟨s, hrun, -, -, out, rest, harray, hlen, hlen', hsorted, -, hperm⟩ := hloop
  have htotal := hperm.length_eq
  rw [List.length_append] at htotal
  rw [harray, List.length_append] at hlen'
  have hflatten : s.piles.flatten = [] := List.eq_nil_of_length_eq_zero (by omega)
  have hrest : rest = [] := List.eq_nil_of_length_eq_zero (by omega)
  rw [hflatten, List.append_nil] at hperm
  rw [hrest, List.append_nil] at harray
  refine ⟨s.array, ?_, harray ▸ hsorted, harray ▸ hperm⟩
  unfold patienceSort
  simp only [hinsert, hbuild, hrun, Option.bind_eq_bind, Option.bind_some]
  rfl

theorem patienceSort_eq_none (h : array.foldlM insertElement [] = none) :
    patienceSort array = none := by
  unfold patienceSort
  rw [h]
  rfl

/-- `r-l` is an `int` as long as no non-decreasing subsequence before the last element has
2147483647 elements. -/
theorem patienceSort_iff (array : List ℤ) : Sorts array ↔
    ∀ s : List ℤ, s.Sublist array.dropLast → s.Pairwise (· ≤ ·) → s.length < 2147483647 := by
  have hlimit : (2147483647 : ℕ) = 2 ^ 31 - 1 := rfl
  rw [hlimit, ← Patience.length_tops_lt_iff]
  constructor
  · rintro ⟨sorted, hsort, -⟩
    by_contra hnot
    rw [patienceSort_eq_none ((insertAll_spec array).2 (not_lt.mp hnot))] at hsort
    cases hsort
  · intro hlt
    obtain ⟨piles, hinsert, hholds⟩ := (insertAll_spec array).1 hlt
    exact hholds.patienceSort_spec hinsert

theorem not_sorts_replicate : ¬ Sorts (List.replicate (2 ^ 31) 0) := by
  have hdrop : (List.replicate (2 ^ 31) (0 : ℤ)).dropLast = List.replicate (2 ^ 31 - 1) 0 :=
    List.dropLast_replicate
  have hnone : (List.replicate (2 ^ 31) 0).foldlM insertElement [] = none := by
    apply (insertAll_spec _).2
    rw [hdrop]
    exact (Patience.length_tops_isGreatest _).2
      ⟨_, .refl _, List.pairwise_replicate.mpr (.inr (le_refl 0)), List.length_replicate⟩
  rintro ⟨sorted, hsort, -⟩
  rw [patienceSort_eq_none hnone] at hsort
  cases hsort

example : patienceSort [2, 7, 2, 9, 4] = some [2, 2, 4, 7, 9] := by decide

end InterviewQuestions.PatienceSort

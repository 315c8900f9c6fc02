import InterviewQuestions.Library.ArrayHeap
import InterviewQuestions.Library.BestFirst
import InterviewQuestions.Library.Rearrangement
import Mathlib.Algebra.Order.Ring.Int
import Mathlib.Data.List.GetD
import Mathlib.Data.List.Range

/-! `arrays_strings/kth_largest_heap/solution.c`. There is no result where an index is out of range
or an entry is read that was never written. -/
namespace InterviewQuestions.KthLargest

open Library

structure HeapNode where
  origI : ℕ
  val : ℤ
deriving DecidableEq

/-- An array on the stack, where nothing is written at first. -/
abbrev Heap := List (Option HeapNode)

/-- `heap[i]` -/
def node (heap : Heap) (i : ℕ) : Option HeapNode := heap[i]?.join

/-- `heap[i].val > heap[j].val` -/
def above (heap : Heap) (i j : ℕ) : Option Bool := do
  let a ← node heap i
  let b ← node heap j
  return a.val > b.val

def maxHeapInsert (heap : Heap) (heapSz : ℕ) (val : ℤ) (idx : ℕ) : Option Heap :=
  if heapSz < heap.length then loop (heapSz + 1) (heap.set heapSz (some ⟨idx, val⟩)) heapSz
  else none
where
  loop : ℕ → Heap → ℕ → Option Heap
    | 0, _, _ => none
    | fuel + 1, heap, i =>
        let parent := (i + 1) / 2 - 1
        if i ≠ 0 then do
          if ← above heap i parent then loop fuel (← swap heap i parent) parent else return heap
        else some heap

/-- `if (child < heap_sz && heap[child].val > heap[largest].val) largest = child;` -/
def larger (heap : Heap) (heapSz child largest : ℕ) : Option ℕ :=
  if child < heapSz then do
    if ← above heap child largest then return child else return largest
  else some largest

/-- `largest`, as `max_heap_extract` computes it before its loop and at the end of each round. -/
def largestOf (heap : Heap) (heapSz curr : ℕ) : Option ℕ := do
  let left := curr * 2 + 1
  let right := left + 1
  larger heap heapSz right (← larger heap heapSz left curr)

/-- The heap, and the entry for `*val` and `*idx`. -/
def maxHeapExtract (heap : Heap) (heapSz : ℕ) : Option (Heap × HeapNode) := do
  let top ← node heap 0
  if heapSz = 1 then return (heap, top)
  else
    let heap ← swap heap 0 (heapSz - 1)
    let largest ← largestOf heap (heapSz - 1) 0
    return (← loop (heapSz - 1) heapSz heap 0 largest, top)
where
  loop (heapSz : ℕ) : ℕ → Heap → ℕ → ℕ → Option Heap
    | 0, _, _, _ => none
    | fuel + 1, heap, curr, largest =>
        if largest ≠ curr then do
          let heap ← swap heap largest curr
          loop heapSz fuel heap largest (← largestOf heap heapSz largest)
        else some heap

structure State where
  maxHeap : List ℤ
  auxHeap : Heap
  auxHeapSz : ℕ

/-- What `kth_largest` returns, what it writes to `*res`, and the array it was given. -/
structure Outcome where
  ret : ℕ
  res : Option ℤ
  maxHeap : List ℤ
deriving DecidableEq

/-- `max_heap_insert` of an entry of the array, and `aux_heap_sz++` -/
def enter (s : State) (i : ℕ) : Option State := do
  let val ← s.maxHeap[i]?
  let auxHeap ← maxHeapInsert s.auxHeap s.auxHeapSz val i
  return { s with auxHeap := auxHeap, auxHeapSz := s.auxHeapSz + 1 }

/-- `if (child < heap_sz)` -/
def enterChild (heapSz : ℕ) (s : State) (child : ℕ) : Option State :=
  if child < heapSz then enter s child else some s

/-- A round of the loop of `kth_largest`, after `aux_heap_sz` was seen not to be 0. -/
def round (heapSz : ℕ) (s : State) : Option State := do
  let (auxHeap, top) ← maxHeapExtract s.auxHeap s.auxHeapSz
  let s := { s with auxHeap := auxHeap, auxHeapSz := s.auxHeapSz - 1 }
  let left := top.origI * 2 + 1
  let right := left + 1
  enterChild heapSz (← enterChild heapSz s left) right

def kthLargest (maxHeap : List ℤ) (heapSz k : ℕ) : Option Outcome :=
  if heapSz = 0 then some ⟨0, none, maxHeap⟩
  else do loop (k - 1) (← enter ⟨maxHeap, List.replicate k none, 0⟩ 0)
where
  loop : ℕ → State → Option Outcome
    | 0, s =>
        if s.auxHeapSz = 0 then some ⟨0, none, s.maxHeap⟩
        else do return ⟨1, some (← node s.auxHeap 0).val, s.maxHeap⟩
    | rounds + 1, s =>
        if s.auxHeapSz = 0 then some ⟨0, none, s.maxHeap⟩
        else do loop rounds (← round heapSz s)

/-! ## The auxiliary heap -/

open Library.ArrayHeap Library.HeapOrder

variable {h : Array HeapNode} {rest : Heap} {i j curr : ℕ}

/-- The heap of the largest value is the heap of the least negated one. -/
def key (n : HeapNode) : ℤ := -n.val

/-- The entries of a heap, and the rest of the array it is in. -/
def cells (h : Array HeapNode) (rest : Heap) : Heap := h.toList.map some ++ rest

theorem length_cells (h : Array HeapNode) (rest : Heap) :
    (cells h rest).length = h.size + rest.length := by
  rw [cells, List.length_append, List.length_map, Array.length_toList]

theorem node_cells (hi : i < h.size) : node (cells h rest) i = some h[i] := by
  have hlen : i < (h.toList.map some).length := by simpa using hi
  rw [node, cells, List.getElem?_append_left hlen, List.getElem?_eq_getElem hlen]
  simp

theorem above_cells (hi : i < h.size) (hj : j < h.size) :
    above (cells h rest) i j = some (less key h i j) := by
  rw [above, node_cells hi, node_cells hj, less, Array.getElem?_eq_getElem hi,
    Array.getElem?_eq_getElem hj]
  simp only [Option.bind_eq_bind, Option.bind_some, Option.pure_def, key]
  congr 1
  simp

theorem swap_cells (hi : i < h.size) (hj : j < h.size) :
    swap (cells h rest) i j = some (cells (h.swapIfInBounds i j) rest) := by
  have hlen : (h.toList.map some).length = h.size := by simp
  rw [cells, swap_append_right _ _ (by omega) (by omega), swap,
    List.getElem?_eq_getElem (by omega), List.getElem?_eq_getElem (by omega), cells,
    Array.swapIfInBounds_def, dif_pos hi, dif_pos hj]
  simp [List.map_set]

theorem maxHeapInsert_loop_cells (fuel : ℕ) (hcurr : curr < h.size) (hfuel : curr ≤ fuel) :
    maxHeapInsert.loop (fuel + 1) (cells h rest) curr =
      some (cells (siftUp.loop key parent fuel h curr) rest) := by
  induction fuel generalizing h curr with
  | zero =>
    obtain rfl : curr = 0 := by omega
    rfl
  | succ fuel ih =>
    rw [maxHeapInsert.loop, siftUp.loop]
    by_cases hzero : curr = 0
    · rw [if_neg (not_not_intro hzero), if_neg (fun hand => hand.1 hzero)]
    have hparent : (curr + 1) / 2 - 1 = parent curr := by
      unfold parent
      omega
    have hlt := parent_lt (Nat.pos_of_ne_zero hzero)
    rw [if_pos hzero, hparent]
    rw [above_cells hcurr (by omega), swap_cells hcurr (by omega)]
    simp only [Option.bind_eq_bind, Option.bind_some]
    by_cases hless : less key h curr (parent curr) = true
    · rw [if_pos hless, if_pos ⟨hzero, hless⟩]
      exact ih (by simpa using hlt.trans hcurr) (by omega)
    · rw [if_neg hless, if_neg (fun hand => hless hand.2)]
      rfl

theorem maxHeapInsert_cells (x : Option HeapNode) (val : ℤ) (idx : ℕ) :
    maxHeapInsert (cells h (x :: rest)) h.size val idx =
      some (cells (siftUp key parent (h.push ⟨idx, val⟩) h.size) rest) := by
  have hset : (cells h (x :: rest)).set h.size (some ⟨idx, val⟩) =
      cells (h.push ⟨idx, val⟩) rest := by
    have hlen : (h.toList.map some).length = h.size := by simp
    rw [cells, cells, ← hlen, set_append_cons]
    simp
  rw [maxHeapInsert, if_pos (by rw [length_cells, List.length_cons]; omega), hset]
  exact maxHeapInsert_loop_cells h.size (by simp) le_rfl

theorem larger_cells {child largest : ℕ} (hlargest : largest < h.size) :
    larger (cells h rest) h.size child largest =
      some (if child < h.size ∧ less key h child largest then child else largest) := by
  rw [larger]
  by_cases hchild : child < h.size
  · rw [if_pos hchild, above_cells hchild hlargest]
    simp only [Option.bind_eq_bind, Option.bind_some, hchild, true_and, Option.pure_def]
    rw [← apply_ite some]
  · rw [if_neg hchild, if_neg (fun hand => hchild hand.1)]

theorem largestOf_cells (rest : Heap) (hcurr : curr < h.size) :
    largestOf (cells h rest) h.size curr = some (smallestOf key h curr) := by
  rw [largestOf, larger_cells hcurr]
  simp only [Option.bind_eq_bind, Option.bind_some]
  rw [larger_cells (by split <;> omega), smallestOf, Nat.mul_comm curr 2]

theorem maxHeapExtract_loop_cells (fuel : ℕ) (hcurr : curr < h.size)
    (hfuel : h.size - curr ≤ fuel) :
    maxHeapExtract.loop h.size (fuel + 1) (cells h rest) curr (smallestOf key h curr) =
      some (cells (siftDown.loop key fuel h curr) rest) := by
  induction fuel generalizing h curr with
  | zero => omega
  | succ fuel ih =>
    rw [maxHeapExtract.loop, siftDown.loop]
    rcases smallestOf_spec key hcurr with ⟨hstay, -⟩ | ⟨-, hgt, hsmall, -⟩
    · rw [if_neg (not_not_intro hstay), if_neg (not_not_intro hstay)]
    · have hsize : (h.swapIfInBounds curr (smallestOf key h curr)).size = h.size := by simp
      have hnext := largestOf_cells rest (hsmall.trans_eq hsize.symm)
      rw [hsize] at hnext
      rw [if_pos hgt.ne', if_pos hgt.ne', swap_cells hsmall hcurr, swapIfInBounds_comm]
      simp only [Option.bind_eq_bind, Option.bind_some]
      rw [hnext]
      simp only [Option.bind_some]
      have hloop := ih (hsmall.trans_eq hsize.symm) (by omega)
      rwa [hsize] at hloop

theorem siftDown_cells (rest : Heap) (hpos : 0 < h.size) :
    ((largestOf (cells h rest) h.size 0).bind fun largest =>
      maxHeapExtract.loop h.size (h.size + 1) (cells h rest) 0 largest) =
      some (cells (siftDown key h 0) rest) := by
  rw [largestOf_cells rest hpos]
  exact maxHeapExtract_loop_cells h.size hpos (Nat.sub_le _ _)

theorem cells_pop (rest : Heap) (hpos : 0 < h.size) :
    ∃ x, cells h rest = cells h.pop (x :: rest) := by
  have hne : h.toList ≠ [] := by
    rw [← List.length_pos_iff, Array.length_toList]
    exact hpos
  refine ⟨some (h.toList.getLast hne), ?_⟩
  rw [cells, cells, Array.toList_pop]
  nth_rewrite 1 [← List.dropLast_append_getLast hne]
  simp

/-- The top is taken away, and its place behind the heap is free again. -/
theorem maxHeapExtract_cells (rest : Heap) (hpos : 0 < h.size) :
    ∃ x, maxHeapExtract (cells h rest) h.size = some (cells (popRoot key h) (x :: rest), h[0]) := by
  rw [maxHeapExtract, node_cells hpos]
  simp only [Option.bind_eq_bind, Option.bind_some]
  by_cases hone : h.size = 1
  · have hpop : popRoot key h = h.pop := by
      have hperm : (h[0] :: (popRoot key h).toList).Perm h.toList := popRoot_perm hpos
      have hlen := hperm.length_eq
      rw [List.length_cons, Array.length_toList, Array.length_toList] at hlen
      have hempty : h.pop.size = 0 := by simp [hone]
      have hempty' : (popRoot key h).size = 0 := by omega
      rw [Array.eq_empty_of_size_eq_zero hempty, Array.eq_empty_of_size_eq_zero hempty']
    obtain ⟨x, hx⟩ := cells_pop rest hpos
    rw [if_pos hone, hpop]
    exact ⟨x, congrArg (fun heap => some (heap, h[0])) hx⟩
  · have hsize : (h.swapIfInBounds 0 (h.size - 1)).size = h.size := by simp
    have hsize' : (h.swapIfInBounds 0 (h.size - 1)).pop.size = h.size - 1 := by simp
    have hswap : 0 < (h.swapIfInBounds 0 (h.size - 1)).size := by omega
    have hswap' : 0 < (h.swapIfInBounds 0 (h.size - 1)).pop.size := by omega
    obtain ⟨x, hx⟩ := cells_pop rest hswap
    have hsift := siftDown_cells (x :: rest) hswap'
    rw [hsize', show h.size - 1 + 1 = h.size by omega] at hsift
    refine ⟨x, ?_⟩
    rw [if_neg hone, swap_cells hpos (by omega), hx]
    simp only [Option.bind_some]
    rw [← Option.bind_assoc, hsift]
    rfl

/-- What is entered for an element of the array. -/
def entry (maxHeap : List ℤ) (i : ℕ) : HeapNode := ⟨i, maxHeap.getD i 0⟩

/-- The heap at the front of an array of `k` entries, for some of the indices of `maxHeap`. -/
structure Aux (maxHeap : List ℤ) (k : ℕ) (frontier : List ℕ) (s : State) : Prop where
  maxHeap_eq : s.maxHeap = maxHeap
  length_eq : s.auxHeap.length = k
  size_eq : s.auxHeapSz = frontier.length
  isHeap : ∃ h rest, s.auxHeap = cells h rest ∧ Ordered (keyAt key h) h.size ∧
    h.toList.Perm (frontier.map (entry maxHeap))

variable {maxHeap : List ℤ} {k x : ℕ} {taken frontier : List ℕ} {s : State}

theorem enter_spec (hs : Aux maxHeap k frontier s) (hi : i < maxHeap.length)
    (hroom : frontier.length < k) :
    ∃ s', enter s i = some s' ∧ Aux maxHeap k (i :: frontier) s' := by
  obtain ⟨h, rest, haux, hord, hperm⟩ := hs.isHeap
  have hsize : h.size = s.auxHeapSz := by
    rw [hs.size_eq, ← Array.length_toList, hperm.length_eq, List.length_map]
  have hlen := hs.length_eq
  rw [haux, length_cells] at hlen
  obtain ⟨x, rest, rfl⟩ : ∃ x rest', rest = x :: rest' := by
    cases rest with
    | nil =>
      rw [List.length_nil] at hlen
      have := hs.size_eq
      omega
    | cons x rest => exact ⟨x, rest, rfl⟩
  have hval : maxHeap[i]? = some (maxHeap.getD i 0) := by
    rw [List.getD_eq_getElem _ _ hi, List.getElem?_eq_getElem hi]
  have hinsert : maxHeapInsert (cells h (x :: rest)) h.size (maxHeap.getD i 0) i =
      some (cells (siftUp key parent (h.push (entry maxHeap i)) h.size) rest) :=
    maxHeapInsert_cells x _ i
  have hsift : (siftUp key parent (h.push (entry maxHeap i)) h.size).toList.Perm
      (h.push (entry maxHeap i)).toList := siftUp_perm _ _
  rw [enter, hs.maxHeap_eq, hval, haux, ← hsize, Option.bind_eq_bind, Option.bind_some, hinsert]
  refine ⟨_, rfl, rfl, ?_, ?_, _, rest, rfl, ?_, hsift.trans ?_⟩
  · rw [length_cells, ← Array.length_toList, hsift.length_eq, Array.length_toList, Array.size_push]
    rw [List.length_cons] at hlen
    omega
  · rw [hsize, hs.size_eq, List.length_cons]
  · have hdone := siftUp_ordered (by simp) (push_orderedButAbove (entry maxHeap i) hord)
    have hsize' := hsift.length_eq
    rw [Array.length_toList, Array.length_toList] at hsize'
    rwa [← hsize'] at hdone
  · rw [Array.toList_push, List.map_cons]
    exact (List.perm_append_singleton _ _).trans (hperm.cons _)

/-- The entry that is taken out is one with the largest value. -/
theorem extract_spec (hs : Aux maxHeap k frontier s) (hne : frontier ≠ []) :
    ∃ x left heap, frontier.Perm (x :: left) ∧
      (∀ u ∈ frontier, maxHeap.getD u 0 ≤ maxHeap.getD x 0) ∧
      node s.auxHeap 0 = some (entry maxHeap x) ∧
      maxHeapExtract s.auxHeap s.auxHeapSz = some (heap, entry maxHeap x) ∧
      Aux maxHeap k left { s with auxHeap := heap, auxHeapSz := s.auxHeapSz - 1 } := by
  obtain ⟨h, rest, haux, hord, hperm⟩ := hs.isHeap
  have hsize : h.size = s.auxHeapSz := by
    rw [hs.size_eq, ← Array.length_toList, hperm.length_eq, List.length_map]
  have hpos : 0 < h.size := by
    rw [hsize, hs.size_eq]
    exact List.length_pos_iff.mpr hne
  obtain ⟨x, hx, htop⟩ : ∃ x ∈ frontier, entry maxHeap x = h[0] := by
    apply List.mem_map.mp
    exact hperm.mem_iff.mp (Array.getElem_mem_toList hpos)
  obtain ⟨cell, hextract⟩ := maxHeapExtract_cells rest hpos
  have hsplit : frontier.Perm (x :: frontier.erase x) := List.perm_cons_erase hx
  have hpop : (h[0] :: (popRoot key h).toList).Perm h.toList := popRoot_perm hpos
  refine ⟨x, frontier.erase x, cells (popRoot key h) (cell :: rest), hsplit, fun u hu => ?_, ?_, ?_,
    hs.maxHeap_eq, ?_, ?_, popRoot key h, cell :: rest, rfl, popRoot_ordered hord, ?_⟩
  · have hmem := hperm.mem_iff.mpr (List.mem_map_of_mem (f := entry maxHeap) hu)
    have hle := root_le_of_mem hord hpos hmem
    rw [← htop] at hle
    exact Int.neg_le_neg_iff.mp hle
  · rw [haux, node_cells hpos, htop]
  · rw [haux, ← hsize, hextract, htop]
  · have hlen := hpop.length_eq
    rw [List.length_cons, Array.length_toList, Array.length_toList] at hlen
    have hlen' := hs.length_eq
    rw [haux, length_cells] at hlen'
    rw [length_cells, List.length_cons]
    omega
  · rw [hs.size_eq, hsplit.length_eq]
    rfl
  · have hcons := hpop.trans (hperm.trans (hsplit.map (entry maxHeap)))
    rw [List.map_cons, htop] at hcons
    exact hcons.cons_inv

/-! ## The search -/

open Library.BestFirst Relation

/-- The children of a node in an array of `size` elements. -/
def Child (size u v : ℕ) : Prop := v < size ∧ (v = u * 2 + 1 ∨ v = u * 2 + 1 + 1)

theorem isTree_child (size : ℕ) : IsTree (Child size) 0 where
  unique _ _ _ hu hv := by
    rcases hu.2 with hu | hu <;> rcases hv.2 with hv | hv <;> omega
  orphan _ hu := by
    rcases hu.2 with hu | hu <;> omega

theorem reach_iff {size v : ℕ} (hsize : 0 < size) :
    ReflTransGen (Child size) 0 v ↔ v < size := by
  constructor
  · intro h
    cases h with
    | refl => exact hsize
    | tail _ hchild => exact hchild.1
  · intro hv
    induction v using Nat.strongRecOn with
    | _ v ih =>
      rcases Nat.eq_zero_or_pos v with rfl | hpos
      · exact .refl
      · have hlt := parent_lt hpos
        refine (ih (parent v) hlt (by omega)).tail ⟨hv, ?_⟩
        unfold parent
        omega

/-- Each element is at most its parent. -/
def IsMaxHeap (maxHeap : List ℤ) : Prop :=
  ∀ i < maxHeap.length, 0 < i → maxHeap.getD i 0 ≤ maxHeap.getD (parent i) 0

theorem IsMaxHeap.child_le (hheap : IsMaxHeap maxHeap) (u v : ℕ)
    (h : Child maxHeap.length u v) : maxHeap.getD v 0 ≤ maxHeap.getD u 0 := by
  have hle := hheap v h.1 (by rcases h.2 with h | h <;> omega)
  rcases h.2 with rfl | rfl
  · rwa [Nat.mul_comm, parent_left, Nat.mul_comm] at hle
  · rwa [Nat.mul_comm, parent_right, Nat.mul_comm] at hle

/-- The children of `x` in the array, the right one in front. -/
def childrenOf (size x : ℕ) : List ℕ := [x * 2 + 1 + 1, x * 2 + 1].filter (· < size)

theorem enterChild_spec (hs : Aux maxHeap k frontier s) (hroom : frontier.length < k) :
    ∃ s', enterChild maxHeap.length s i = some s' ∧
      Aux maxHeap k ([i].filter (· < maxHeap.length) ++ frontier) s' := by
  rw [enterChild]
  by_cases hi : i < maxHeap.length
  · rw [if_pos hi, List.filter_cons_of_pos (by simpa using hi)]
    exact enter_spec hs hi hroom
  · rw [if_neg hi, List.filter_cons_of_neg (by simpa using hi)]
    exact ⟨s, rfl, hs⟩

theorem round_spec (hs : Aux maxHeap k frontier s) (hne : frontier ≠ [])
    (hroom : frontier.length < k) :
    ∃ x left s', frontier.Perm (x :: left) ∧
      (∀ u ∈ frontier, maxHeap.getD u 0 ≤ maxHeap.getD x 0) ∧
      round maxHeap.length s = some s' ∧
      Aux maxHeap k (childrenOf maxHeap.length x ++ left) s' := by
  obtain ⟨x, left, heap, hperm, hbest, -, hextract, haux⟩ := extract_spec hs hne
  have hlen := hperm.length_eq
  rw [List.length_cons] at hlen
  obtain ⟨s₁, hleft, haux₁⟩ := enterChild_spec (i := x * 2 + 1) haux (by omega)
  have hlen₁ : ([x * 2 + 1].filter (· < maxHeap.length) ++ left).length ≤ 1 + left.length := by
    rw [List.length_append]
    exact Nat.add_le_add_right (List.length_filter_le _ _) _
  obtain ⟨s₂, hright, haux₂⟩ := enterChild_spec (i := x * 2 + 1 + 1) haux₁ (by omega)
  refine ⟨x, left, s₂, hperm, hbest, ?_, ?_⟩
  · rw [round, hextract]
    simp only [Option.bind_eq_bind, Option.bind_some, entry]
    rw [hleft]
    exact hright
  · rw [← List.append_assoc, ← List.filter_append] at haux₂
    exact haux₂

theorem childrenOf_nodup (size x : ℕ) : (childrenOf size x).Nodup := by
  refine List.Nodup.filter _ ?_
  simp

theorem mem_childrenOf (size x v : ℕ) : v ∈ childrenOf size x ↔ Child size x v := by
  rw [childrenOf, List.mem_filter, Child, decide_eq_true_iff, List.mem_pair, and_comm,
    or_comm (a := v = x * 2 + 1)]

theorem map_getD_range (l : List ℤ) : (List.range l.length).map (l.getD · 0) = l := by
  refine List.ext_getElem (by simp) fun i hi hi' => ?_
  rw [List.getElem_map, List.getElem_range, List.getD_eq_getElem _ _ hi']

theorem mem_range_iff (hsize : 0 < maxHeap.length) (v : ℕ) :
    v ∈ List.range maxHeap.length ↔ ReflTransGen (Child maxHeap.length) 0 v := by
  rw [List.mem_range, reach_iff hsize]

/-- What `kth_largest` is to come to. -/
def outcome (maxHeap : List ℤ) (k : ℕ) : Outcome :=
  ⟨if k ≤ maxHeap.length then 1 else 0, (maxHeap.mergeSort (· ≥ ·))[k - 1]?, maxHeap⟩

/-- Where everything was taken out, there is no `k`-th element. -/
theorem loop_empty (hsize : 0 < maxHeap.length) (rounds : ℕ) (hs : Aux maxHeap k [] s)
    (hsearch : Search (Child maxHeap.length) 0 taken []) (hk : taken.length < k) :
    kthLargest.loop maxHeap.length rounds s = some (outcome maxHeap k) := by
  have hall := hsearch.length_eq List.nodup_range (mem_range_iff hsize)
  rw [List.length_range] at hall
  have hzero : s.auxHeapSz = 0 := hs.size_eq
  have hsorted : (maxHeap.mergeSort (· ≥ ·))[k - 1]? = none := by
    rw [List.getElem?_eq_none_iff, List.length_mergeSort]
    omega
  rw [outcome, hsorted, if_neg (by omega), ← hs.maxHeap_eq]
  cases rounds <;> rw [kthLargest.loop, if_pos hzero]

/-- When the rounds are over, the next element is on top. -/
theorem loop_last (hheap : IsMaxHeap maxHeap) (hsize : 0 < maxHeap.length)
    (hs : Aux maxHeap k frontier s) (hne : frontier ≠ [])
    (hsearch : Search (Child maxHeap.length) 0 taken frontier)
    (hlead : Leading (maxHeap.getD · 0) (Child maxHeap.length) 0 taken)
    (hk : taken.length + 1 = k) :
    kthLargest.loop maxHeap.length 0 s = some (outcome maxHeap k) := by
  obtain ⟨x, left, heap, hperm, hbest, htop, -⟩ := extract_spec hs hne
  have hsorted := (hsearch.perm hperm).getElem?_sorted hheap.child_le hlead
    (fun u hu => hbest u (hperm.mem_iff.mpr hu)) List.nodup_range (mem_range_iff hsize)
  rw [map_getD_range, show taken.length = k - 1 by omega] at hsorted
  have hle : k ≤ maxHeap.length := by
    have hlt := (List.getElem?_eq_some_iff.mp hsorted).1
    rw [List.length_mergeSort] at hlt
    omega
  have hpos : s.auxHeapSz ≠ 0 := by
    rw [hs.size_eq]
    exact fun h => hne (List.length_eq_zero_iff.mp h)
  rw [kthLargest.loop, if_neg hpos, htop, outcome, hsorted, if_pos hle, hs.maxHeap_eq]
  rfl

theorem loop_spec (hheap : IsMaxHeap maxHeap) (hsize : 0 < maxHeap.length) (rounds : ℕ)
    (hs : Aux maxHeap k frontier s) (hsearch : Search (Child maxHeap.length) 0 taken frontier)
    (hlead : Leading (maxHeap.getD · 0) (Child maxHeap.length) 0 taken)
    (hrounds : taken.length + 1 + rounds = k) (hfew : frontier.length ≤ taken.length + 1) :
    kthLargest.loop maxHeap.length rounds s = some (outcome maxHeap k) := by
  induction rounds generalizing s taken frontier with
  | zero =>
    by_cases hne : frontier = []
    · subst hne
      exact loop_empty hsize 0 hs hsearch (by omega)
    · exact loop_last hheap hsize hs hne hsearch hlead hrounds
  | succ rounds ih =>
    by_cases hne : frontier = []
    · subst hne
      exact loop_empty hsize _ hs hsearch (by omega)
    obtain ⟨x, left, s', hperm, hbest, hround, haux⟩ := round_spec hs hne (by omega)
    have hlen := hperm.length_eq
    have hchildren : (childrenOf maxHeap.length x).length ≤ 2 := List.length_filter_le _ _
    have hpos : s.auxHeapSz ≠ 0 := by
      rw [hs.size_eq]
      exact fun h => hne (List.length_eq_zero_iff.mp h)
    rw [kthLargest.loop, if_neg hpos, hround]
    simp only [Option.bind_eq_bind, Option.bind_some]
    -- the frontier loses one node and gets at most two
    refine ih haux
      ((hsearch.perm hperm).step (isTree_child _) (childrenOf_nodup _ x) (mem_childrenOf _ x))
      (hlead.cons hsearch hheap.child_le hbest) ?_ ?_
    · rw [List.length_cons]
      omega
    · rw [List.length_append, List.length_cons]
      rw [List.length_cons] at hlen
      omega

end InterviewQuestions.KthLargest

import InterviewQuestions.Library.HeapOrder
import Mathlib.Data.List.Perm.Basic

/-! Binary heaps in arrays, for elements compared by a key. The sifts exchange
two slots at a time; an upward sift is told where each slot goes next. -/
namespace InterviewQuestions.Library.ArrayHeap

open HeapOrder

variable {β κ : Type*} {key : β → κ} {jump : ℕ → ℕ} {h : Array β} {i j curr : ℕ}

section Sifts

variable [LinearOrder κ]

/-- Comparison of two slots of the array. -/
def less (key : β → κ) (h : Array β) (i j : ℕ) : Bool :=
  match h[i]?, h[j]? with
  | some a, some b => key a < key b
  | _, _ => false

def siftUp (key : β → κ) (jump : ℕ → ℕ) (h : Array β) (curr : ℕ) : Array β :=
  loop curr h curr
where
  loop : ℕ → Array β → ℕ → Array β
    | 0, h, _ => h
    | fuel + 1, h, curr =>
        if curr ≠ 0 ∧ less key h curr (jump curr) then
          loop fuel (h.swapIfInBounds curr (jump curr)) (jump curr)
        else h

def smallestOf (key : β → κ) (h : Array β) (curr : ℕ) : ℕ :=
  let left := 2 * curr + 1
  let right := left + 1
  let smallest := if left < h.size ∧ less key h left curr then left else curr
  if right < h.size ∧ less key h right smallest then right else smallest

def siftDown (key : β → κ) (h : Array β) (curr : ℕ) : Array β :=
  loop h.size h curr
where
  loop : ℕ → Array β → ℕ → Array β
    | 0, h, _ => h
    | fuel + 1, h, curr =>
        let smallest := smallestOf key h curr
        if smallest ≠ curr then loop fuel (h.swapIfInBounds curr smallest) smallest else h

/-- The last element moves to the root and sifts down. -/
def popRoot (key : β → κ) (h : Array β) : Array β :=
  siftDown key (h.swapIfInBounds 0 (h.size - 1)).pop 0

/-! ## The sifts rearrange the elements -/

theorem swapIfInBounds_perm (h : Array β) (i j : ℕ) :
    (h.swapIfInBounds i j).toList.Perm h.toList := by
  rw [Array.swapIfInBounds_def]
  split
  · rename_i hi
    split
    · rename_i hj
      exact Array.perm_iff_toList_perm.mp (Array.swap_perm hi hj)
    · exact List.Perm.refl _
  · exact List.Perm.refl _

theorem swapIfInBounds_comm (h : Array β) (i j : ℕ) :
    h.swapIfInBounds i j = h.swapIfInBounds j i := by
  simp only [Array.swapIfInBounds_def]
  by_cases hi : i < h.size
  · by_cases hj : j < h.size
    · simp only [hi, hj, dif_pos]
      exact Array.swap_comm hi hj
    · simp [hi, hj]
  · simp [hi]

@[simp] theorem siftUp_loop_root (fuel : ℕ) (h : Array β) : siftUp.loop key jump fuel h 0 = h := by
  cases fuel <;> simp [siftUp.loop]

theorem siftUp_loop_perm (fuel : ℕ) (h : Array β) (curr : ℕ) :
    (siftUp.loop key jump fuel h curr).toList.Perm h.toList := by
  induction fuel generalizing h curr with
  | zero => exact List.Perm.refl _
  | succ fuel ih =>
    simp only [siftUp.loop]
    split
    · exact (ih _ _).trans (swapIfInBounds_perm h _ _)
    · exact List.Perm.refl _

theorem siftUp_perm (h : Array β) (curr : ℕ) : (siftUp key jump h curr).toList.Perm h.toList :=
  siftUp_loop_perm curr h curr

theorem siftDown_perm (key : β → κ) (h : Array β) (curr : ℕ) :
    (siftDown key h curr).toList.Perm h.toList := by
  suffices hloop : ∀ fuel (h : Array β) curr, (siftDown.loop key fuel h curr).toList.Perm h.toList
    from hloop h.size h curr
  intro fuel
  induction fuel with
  | zero => exact fun h curr => List.Perm.refl _
  | succ fuel ih =>
    intro h curr
    simp only [siftDown.loop]
    split
    · exact (ih _ _).trans (swapIfInBounds_perm h _ _)
    · exact List.Perm.refl _

private theorem swapLast_size : (h.swapIfInBounds 0 (h.size - 1)).size = h.size := by simp

private theorem swapLast_pop_perm (hpos : 0 < h.size) :
    (h[0] :: (h.swapIfInBounds 0 (h.size - 1)).pop.toList).Perm h.toList := by
  have hswap := swapIfInBounds_perm h 0 (h.size - 1)
  have hlast : h.size - 1 < (h.swapIfInBounds 0 (h.size - 1)).size := by
    rw [swapLast_size]
    omega
  have hne : (h.swapIfInBounds 0 (h.size - 1)).toList ≠ [] := by
    intro hnil
    have := congrArg List.length hnil
    rw [Array.length_toList, swapLast_size, List.length_nil] at this
    omega
  have hback : (h.swapIfInBounds 0 (h.size - 1)).toList.getLast hne = h[0] := by
    rw [List.getLast_eq_getElem]
    simp only [Array.length_toList, swapLast_size, Array.getElem_toList]
    exact Array.getElem_swapIfInBounds_right hpos _
  have hsplit := List.dropLast_append_getLast hne
  rw [hback, ← Array.toList_pop] at hsplit
  refine List.Perm.trans ?_ hswap
  rw [← hsplit]
  exact (List.perm_append_singleton _ _).symm

/-- `popRoot` takes away the root and nothing else. -/
theorem popRoot_perm (hpos : 0 < h.size) : (h[0] :: (popRoot key h).toList).Perm h.toList :=
  ((siftDown_perm key _ 0).cons _).trans (swapLast_pop_perm hpos)

end Sifts

/-! ## The keys by slot -/

variable [Zero κ]

/-- The key of a slot in the heap order, zero past the end. -/
def keyAt (key : β → κ) (h : Array β) (i : ℕ) : κ :=
  match h[i]? with
  | some b => key b
  | none => 0

theorem keyAt_of_lt (hi : i < h.size) : keyAt key h i = key h[i] := by
  unfold keyAt
  rw [Array.getElem?_eq_getElem hi]

theorem keyAt_swap (hi : i < h.size) (hj : j < h.size) :
    keyAt key (h.swapIfInBounds i j) = keyAt key h ∘ Equiv.swap i j := by
  funext k
  by_cases hk : k < h.size
  · rw [keyAt_of_lt (by simpa using hk), Function.comp_apply]
    by_cases hki : k = i
    · subst hki
      rw [Equiv.swap_apply_left, keyAt_of_lt hj, Array.getElem_swapIfInBounds_left hj]
    · by_cases hkj : k = j
      · subst hkj
        rw [Equiv.swap_apply_right, keyAt_of_lt hi, Array.getElem_swapIfInBounds_right hi]
      · rw [Equiv.swap_apply_of_ne_of_ne hki hkj, keyAt_of_lt hk,
          Array.getElem_swapIfInBounds_of_ne_of_ne hki hkj]
  · have hki : k ≠ i := by omega
    have hkj : k ≠ j := by omega
    simp [keyAt, Equiv.swap_apply_of_ne_of_ne hki hkj, Nat.le_of_not_lt hk]

/-! ## The sifts restore the heap order -/

variable [LinearOrder κ]

theorem less_iff (hi : i < h.size) (hj : j < h.size) :
    less key h i j = true ↔ keyAt key h i < keyAt key h j := by
  unfold less
  rw [Array.getElem?_eq_getElem hi, Array.getElem?_eq_getElem hj, keyAt_of_lt hi, keyAt_of_lt hj]
  simp

/-- The keys alone during an upward sift. -/
def climb (jump : ℕ → ℕ) : ℕ → (ℕ → κ) → ℕ → ℕ → κ
  | 0, now, _ => now
  | fuel + 1, now, curr =>
      if curr ≠ 0 ∧ now curr < now (jump curr) then
        climb jump fuel (now ∘ Equiv.swap curr (jump curr)) (jump curr)
      else now

theorem keyAt_siftUp (hjump : ∀ i, jump i ≤ i) (hcurr : curr < h.size) :
    keyAt key (siftUp key jump h curr) = climb jump curr (keyAt key h) curr := by
  suffices hloop : ∀ fuel (h : Array β) curr, curr < h.size →
      keyAt key (siftUp.loop key jump fuel h curr) = climb jump fuel (keyAt key h) curr from
    hloop curr h curr hcurr
  intro fuel
  induction fuel with
  | zero => exact fun _ _ _ => rfl
  | succ fuel ih =>
    intro h curr hcurr
    have hnext := (hjump curr).trans_lt hcurr
    simp only [siftUp.loop, climb, less_iff hcurr hnext]
    split
    · rw [ih _ _ (by simpa using hnext), keyAt_swap hcurr hnext]
    · rfl

theorem siftUp_ordered (hcurr : curr < h.size)
    (hord : OrderedButAbove (keyAt key h) h.size curr) :
    Ordered (keyAt key (siftUp key parent h curr)) h.size := by
  suffices hloop : ∀ fuel (h : Array β) curr, curr ≤ fuel → curr < h.size →
      OrderedButAbove (keyAt key h) h.size curr →
      Ordered (keyAt key (siftUp.loop key parent fuel h curr)) h.size from
    hloop curr h curr le_rfl hcurr hord
  intro fuel
  induction fuel with
  | zero =>
    intro h curr hfuel _ hord
    exact hord.done fun hpos => absurd hfuel (Nat.not_le.mpr hpos)
  | succ fuel ih =>
    intro h curr hfuel hcurr hord
    simp only [siftUp.loop]
    by_cases hzero : curr = 0
    · rw [if_neg (by simp [hzero])]
      exact hord.done fun hpos => absurd hzero hpos.ne'
    have hpos := Nat.pos_of_ne_zero hzero
    have hlt := parent_lt hpos
    have hparent := hlt.trans hcurr
    by_cases hless : less key h curr (parent curr) = true
    · rw [if_pos ⟨hzero, hless⟩]
      have hswap := hord.swap hpos hcurr ((less_iff hcurr hparent).mp hless)
      rw [← keyAt_swap hcurr hparent] at hswap
      have hsize : (h.swapIfInBounds curr (parent curr)).size = h.size := by simp
      have hnext := ih (h.swapIfInBounds curr (parent curr)) (parent curr) (by omega)
        (by rwa [hsize]) (by rwa [hsize])
      rwa [hsize] at hnext
    · rw [if_neg fun hand => hless hand.2]
      exact hord.done fun _ => le_of_not_gt fun hl =>
        hless ((less_iff hcurr hparent).mpr hl)

/-- `smallestOf` stays when no child is smaller, and otherwise picks the least child. -/
theorem smallestOf_spec (key : β → κ) (hcurr : curr < h.size) :
    (smallestOf key h curr = curr ∧
      ∀ i, 0 < i → i < h.size → parent i = curr → keyAt key h curr ≤ keyAt key h i) ∨
    (parent (smallestOf key h curr) = curr ∧ curr < smallestOf key h curr ∧
      smallestOf key h curr < h.size ∧
      keyAt key h (smallestOf key h curr) < keyAt key h curr ∧
      ∀ i, 0 < i → i < h.size → parent i = curr →
        keyAt key h (smallestOf key h curr) ≤ keyAt key h i) := by
  have hl := parent_left curr
  have hr := parent_right curr
  simp only [smallestOf, Nat.add_assoc, Nat.reduceAdd]
  -- whether the left child beats `curr` decides what the right child is compared with
  by_cases hleft : 2 * curr + 1 < h.size ∧ less key h (2 * curr + 1) curr
  · have hlt := (less_iff hleft.1 hcurr).mp hleft.2
    rw [if_pos hleft]
    by_cases hright : 2 * curr + 2 < h.size ∧ less key h (2 * curr + 2) (2 * curr + 1)
    · have hlt' := (less_iff hright.1 hleft.1).mp hright.2
      rw [if_pos hright]
      refine Or.inr ⟨hr, by omega, hright.1, hlt'.trans hlt, ?_⟩
      intro i hpos _ hp
      rcases child_cases hpos hp with rfl | rfl
      · exact hlt'.le
      · exact le_rfl
    · rw [if_neg hright]
      refine Or.inr ⟨hl, by omega, hleft.1, hlt, ?_⟩
      intro i hpos hi hp
      rcases child_cases hpos hp with rfl | rfl
      · exact le_rfl
      · exact le_of_not_gt fun hle => hright ⟨hi, (less_iff hi hleft.1).mpr hle⟩
  · rw [if_neg hleft]
    have hleftLe : 2 * curr + 1 < h.size → keyAt key h curr ≤ keyAt key h (2 * curr + 1) :=
      fun hi => le_of_not_gt fun hle => hleft ⟨hi, (less_iff hi hcurr).mpr hle⟩
    by_cases hright : 2 * curr + 2 < h.size ∧ less key h (2 * curr + 2) curr
    · have hlt := (less_iff hright.1 hcurr).mp hright.2
      rw [if_pos hright]
      refine Or.inr ⟨hr, by omega, hright.1, hlt, ?_⟩
      intro i hpos hi hp
      rcases child_cases hpos hp with rfl | rfl
      · exact hlt.le.trans (hleftLe hi)
      · exact le_rfl
    · rw [if_neg hright]
      refine Or.inl ⟨rfl, ?_⟩
      intro i hpos hi hp
      rcases child_cases hpos hp with rfl | rfl
      · exact hleftLe hi
      · exact le_of_not_gt fun hle => hright ⟨hi, (less_iff hi hcurr).mpr hle⟩

theorem siftDown_ordered (hcurr : curr < h.size)
    (hord : OrderedButBelow (keyAt key h) h.size curr) :
    Ordered (keyAt key (siftDown key h curr)) h.size := by
  suffices hloop : ∀ fuel (h : Array β) curr, h.size - curr ≤ fuel → curr < h.size →
      OrderedButBelow (keyAt key h) h.size curr →
      Ordered (keyAt key (siftDown.loop key fuel h curr)) h.size from
    hloop h.size h curr (Nat.sub_le _ _) hcurr hord
  intro fuel
  induction fuel with
  | zero =>
    intro h curr hfuel hcurr _
    omega
  | succ fuel ih =>
    intro h curr hfuel hcurr hord
    simp only [siftDown.loop]
    rcases smallestOf_spec key hcurr with ⟨hstay, hdone⟩ | ⟨hparent, hgt, hsmall, hlt, hleast⟩
    · rw [if_neg (not_not_intro hstay)]
      exact hord.done hdone
    · rw [if_pos hgt.ne']
      have hswap := hord.swap (Nat.zero_lt_of_lt hgt) hsmall hparent hlt.le hleast
      rw [← keyAt_swap hcurr hsmall] at hswap
      have hsize : (h.swapIfInBounds curr (smallestOf key h curr)).size = h.size := by simp
      have hnext := ih (h.swapIfInBounds curr (smallestOf key h curr)) (smallestOf key h curr)
        (by omega) (by rwa [hsize]) (by rwa [hsize])
      rwa [hsize] at hnext

/-! ## The root -/

theorem popRoot_ordered (hord : Ordered (keyAt key h) h.size) :
    Ordered (keyAt key (popRoot key h)) (popRoot key h).size := by
  have hsize : (popRoot key h).size = h.size - 1 := by
    have := (siftDown_perm key (h.swapIfInBounds 0 (h.size - 1)).pop 0).length_eq
    simpa [popRoot] using this
  have hpop : (h.swapIfInBounds 0 (h.size - 1)).pop.size = h.size - 1 := by simp
  by_cases hone : h.size - 1 = 0
  · intro i _ hi
    omega
  · rw [hsize, ← hpop]
    apply siftDown_ordered (by omega)
    apply hord.replaceRoot (by omega)
    intro i hpos hi
    rw [hpop] at hi
    rw [keyAt_of_lt (by omega), keyAt_of_lt (by omega : i < h.size), Array.getElem_pop,
      Array.getElem_swapIfInBounds_of_ne_of_ne (by omega) (by omega)]

/-- The root of a heap is its least element. -/
theorem root_le_of_mem {b : β} (hord : Ordered (keyAt key h) h.size) (hpos : 0 < h.size)
    (hmem : b ∈ h.toList) : key h[0] ≤ key b := by
  obtain ⟨i, hi, rfl⟩ := List.mem_iff_getElem.mp hmem
  have hroot := hord.root_le (i := i) hi
  rwa [keyAt_of_lt hpos, keyAt_of_lt hi] at hroot

/-- A pushed element sifts up from the last slot. -/
theorem push_orderedButAbove (b : β) (hord : Ordered (keyAt key h) h.size) :
    OrderedButAbove (keyAt key (h.push b)) (h.push b).size h.size := by
  rw [Array.size_push]
  apply hord.push
  intro i hi
  rw [keyAt_of_lt hi, keyAt_of_lt (by rw [Array.size_push]; omega), Array.getElem_push_lt]

end InterviewQuestions.Library.ArrayHeap

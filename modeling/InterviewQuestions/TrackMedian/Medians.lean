import InterviewQuestions.TrackMedian.Model
import Mathlib.Data.List.Induction
import Mathlib.Tactic.NormNum
import Mathlib.Tactic.Ring

/-! The tracker holds the lower half of the values in its left heap. Its median is the
median of the values inserted, up to the insertion that makes their number wrap. -/
namespace InterviewQuestions.TrackMedian

open Library Library.SortedHalves

def ints (values : List Int32) : List ℤ := values.map Int32.toInt

@[simp] theorem length_ints (values : List Int32) : (ints values).length = values.length :=
  List.length_map _

@[simp] theorem ints_cons (n : Int32) (values : List Int32) :
    ints (n :: values) = n.toInt :: ints values := rfl

theorem ints_append (values values' : List Int32) :
    ints (values ++ values') = ints values ++ ints values' := List.map_append

theorem ints_perm {values values' : List Int32} (h : values.Perm values') :
    (ints values).Perm (ints values') := h.map _

/-- Both heaps in order, and the values cut between them. -/
structure Tracks (tracker : MedianTracker) (values : List ℤ) : Prop where
  left : IsHeap descending tracker.heapL
  right : IsHeap ascending tracker.heapR
  halves : Halves (ints tracker.heapL.toList) (ints tracker.heapR.toList) values

variable {tracker : MedianTracker} {values : List ℤ} {n : Int32} {sizeL sizeR : ℕ}

theorem Tracks.size (h : Tracks tracker values) :
    tracker.heapL.size + tracker.heapR.size = values.length := by
  have hlength := h.halves.length
  rwa [length_ints, length_ints, Array.length_toList, Array.length_toList] at hlength

/-- The root of the left heap is its greatest value. -/
theorem Tracks.le_left (h : Tracks tracker values) (hpos : 0 < tracker.heapL.size) :
    ∀ b ∈ ints tracker.heapL.toList, b ≤ tracker.heapL[0].toInt := by
  intro b hb
  rcases List.mem_map.mp hb with ⟨m, hm, rfl⟩
  exact neg_le_neg_iff.mp (root_least h.left hpos hm)

/-- The root of the right heap is its least value. -/
theorem Tracks.right_le (h : Tracks tracker values) (hpos : 0 < tracker.heapR.size) :
    ∀ b ∈ ints tracker.heapR.toList, tracker.heapR[0].toInt ≤ b := by
  intro b hb
  rcases List.mem_map.mp hb with ⟨m, hm, rfl⟩
  exact root_least h.right hpos hm

theorem Tracks.mem_left (hpos : 0 < tracker.heapL.size) :
    tracker.heapL[0].toInt ∈ ints tracker.heapL.toList := by
  apply List.mem_map_of_mem
  simp

theorem Tracks.mem_right (hpos : 0 < tracker.heapR.size) :
    tracker.heapR[0].toInt ∈ ints tracker.heapR.toList := by
  apply List.mem_map_of_mem
  simp

/-! ## A new element -/

theorem Tracks.insertLeft (h : Tracks tracker values)
    (hle : ∀ b ∈ ints tracker.heapR.toList, n.toInt ≤ b) :
    Tracks { tracker with heapL := insertHeap maxHeapComparator tracker.heapL n }
      (n.toInt :: values) where
  left := insertHeap_isHeap compares_descending h.left n
  right := h.right
  halves := (h.halves.addBelow hle).congr
    (ints_perm (insertHeap_perm compares_descending tracker.heapL n)) (List.Perm.refl _)

theorem Tracks.insertRight (h : Tracks tracker values)
    (hle : ∀ b ∈ ints tracker.heapL.toList, b ≤ n.toInt) :
    Tracks { tracker with heapR := insertHeap minHeapComparator tracker.heapR n }
      (n.toInt :: values) where
  left := h.left
  right := insertHeap_isHeap compares_ascending h.right n
  halves := (h.halves.addAbove hle).congr (List.Perm.refl _)
    (ints_perm (insertHeap_perm compares_ascending tracker.heapR n))

/-! ## Balancing -/

/-- The greatest value of the left heap moves to the right one. -/
theorem Tracks.moveRight (h : Tracks tracker values) (hpos : 0 < tracker.heapL.size) :
    ∃ rest v, extract maxHeapComparator tracker.heapL = some (rest, v) ∧
      rest.size + 1 = tracker.heapL.size ∧
      Tracks ⟨rest, insertHeap minHeapComparator tracker.heapR v⟩ values := by
  rcases extract_spec compares_descending h.left hpos with ⟨rest, hextract, hheap, hperm⟩
  have hhalves : Halves (tracker.heapL[0].toInt :: ints rest.toList)
      (ints tracker.heapR.toList) values := h.halves.congr (ints_perm hperm) (List.Perm.refl _)
  have hle : ∀ b ∈ ints rest.toList, b ≤ tracker.heapL[0].toInt := by
    intro b hb
    exact h.le_left hpos b ((ints_perm hperm).mem_iff.mp (List.mem_cons_of_mem _ hb))
  exact ⟨rest, tracker.heapL[0], hextract, hperm.length_eq,
    { left := hheap
      right := insertHeap_isHeap compares_ascending h.right _
      halves := (hhalves.raise hle).congr (List.Perm.refl _)
        (ints_perm (insertHeap_perm compares_ascending tracker.heapR _)) }⟩

/-- The least value of the right heap moves to the left one. -/
theorem Tracks.moveLeft (h : Tracks tracker values) (hpos : 0 < tracker.heapR.size) :
    ∃ rest v, extract minHeapComparator tracker.heapR = some (rest, v) ∧
      rest.size + 1 = tracker.heapR.size ∧
      Tracks ⟨insertHeap maxHeapComparator tracker.heapL v, rest⟩ values := by
  rcases extract_spec compares_ascending h.right hpos with ⟨rest, hextract, hheap, hperm⟩
  have hhalves : Halves (ints tracker.heapL.toList)
      (tracker.heapR[0].toInt :: ints rest.toList) values :=
    h.halves.congr (List.Perm.refl _) (ints_perm hperm)
  have hle : ∀ b ∈ ints rest.toList, tracker.heapR[0].toInt ≤ b := by
    intro b hb
    exact h.right_le hpos b ((ints_perm hperm).mem_iff.mp (List.mem_cons_of_mem _ hb))
  exact ⟨rest, tracker.heapR[0], hextract, hperm.length_eq,
    { left := insertHeap_isHeap compares_descending h.left _
      right := hheap
      halves := (hhalves.sink hle).congr
        (ints_perm (insertHeap_perm compares_descending tracker.heapL _)) (List.Perm.refl _) }⟩

@[simp] theorem size_insertHeap_left (heap : Heap) (v : Int32) :
    (insertHeap maxHeapComparator heap v).size = heap.size + 1 :=
  (insertHeap_perm compares_descending heap v).length_eq

@[simp] theorem size_insertHeap_right (heap : Heap) (v : Int32) :
    (insertHeap minHeapComparator heap v).size = heap.size + 1 :=
  (insertHeap_perm compares_ascending heap v).length_eq

/-- Sizes that add up to the number of values are reached. -/
theorem Tracks.balanceHeaps_loop (hsizes : sizeL + sizeR = values.length) (fuel : ℕ) :
    ∀ tracker, Tracks tracker values →
      tracker.heapL.size - sizeL + (sizeL - tracker.heapL.size) < fuel →
      ∃ tracker', MedianTracker.balanceHeaps.loop sizeL sizeR fuel tracker = some tracker' ∧
        Tracks tracker' values ∧ tracker'.heapL.size = sizeL := by
  induction fuel with
  | zero =>
    intro tracker _ hfuel
    omega
  | succ fuel ih =>
    intro tracker h hfuel
    have hsize := h.size
    unfold MedianTracker.balanceHeaps.loop
    by_cases hdone : tracker.heapL.size = sizeL
    · rw [if_neg fun hand => hand.1 hdone]
      exact ⟨tracker, rfl, h, hdone⟩
    · rw [if_pos ⟨hdone, by omega⟩]
      by_cases hmore : tracker.heapL.size > sizeL
      · rcases h.moveRight (by omega) with ⟨rest, v, hextract, hrest, hnext⟩
        rw [if_pos hmore, hextract]
        apply ih _ hnext
        show rest.size - sizeL + (sizeL - rest.size) < fuel
        omega
      · rcases h.moveLeft (by omega) with ⟨rest, v, hextract, hrest, hnext⟩
        rw [if_neg hmore, hextract]
        apply ih _ hnext
        simp only [size_insertHeap_left]
        omega

/-- Sizes of zero empty the left heap, since the right one never shrinks. -/
theorem Tracks.balanceHeaps_zero (fuel : ℕ) :
    ∀ tracker, Tracks tracker values → tracker.heapL.size < fuel → tracker.heapR.size ≠ 0 →
      ∃ tracker', MedianTracker.balanceHeaps.loop 0 0 fuel tracker = some tracker' ∧
        tracker'.heapL.size = 0 := by
  induction fuel with
  | zero =>
    intro tracker _ hfuel
    omega
  | succ fuel ih =>
    intro tracker h hfuel hright
    unfold MedianTracker.balanceHeaps.loop
    by_cases hdone : tracker.heapL.size = 0
    · rw [if_neg fun hand => hand.1 hdone]
      exact ⟨tracker, rfl, hdone⟩
    · rcases h.moveRight (Nat.pos_of_ne_zero hdone) with ⟨rest, v, hextract, hrest, hnext⟩
      rw [if_pos ⟨hdone, hright⟩, if_pos (Nat.pos_of_ne_zero hdone), hextract]
      apply ih _ hnext _ (by simp)
      show rest.size < fuel
      omega

/-! ## One insertion -/

/-- The state between two calls: the left half has the odd value. -/
structure Balanced (tracker : MedianTracker) (values : List ℤ) : Prop
    extends Tracks tracker values where
  size_left : tracker.heapL.size = (values.length + 1) / 2

theorem Balanced.empty : Balanced MedianTracker.empty [] where
  left := fun _ _ hi => absurd hi (Nat.not_lt_zero _)
  right := fun _ _ hi => absurd hi (Nat.not_lt_zero _)
  halves := Halves.nil
  size_left := rfl

theorem Balanced.of_perm {values' : List ℤ} (h : Balanced tracker values)
    (hperm : values.Perm values') : Balanced tracker values' where
  left := h.left
  right := h.right
  halves := h.halves.of_perm hperm
  size_left := by rw [h.size_left, hperm.length_eq]

theorem Balanced.place (h : Balanced tracker values) (hlt : values.length < 2 ^ 32) (n : Int32) :
    ∃ tracker', tracker.place (UInt32.ofNat values.length) n = some tracker' ∧
      Tracks tracker' (n.toInt :: values) ∧ tracker.heapR.size ≤ tracker'.heapR.size := by
  have hsize := h.size
  have hleft := h.size_left
  have helements : (UInt32.ofNat values.length).toNat = values.length := by
    rw [UInt32.toNat_ofNat']
    exact Nat.mod_eq_of_lt hlt
  unfold MedianTracker.place
  by_cases hzero : values.length = 0
  · have hnone : UInt32.ofNat values.length = 0 := by rw [hzero]; rfl
    simp only [hnone, if_true]
    have hright : tracker.heapR = #[] := Array.eq_empty_of_size_eq_zero (by omega)
    exact ⟨_, rfl, h.insertLeft (by simp [hright, ints]), le_rfl⟩
  · have hpos : 0 < tracker.heapL.size := by omega
    have hne : UInt32.ofNat values.length ≠ 0 := by
      intro heq
      rw [heq] at helements
      exact hzero helements.symm
    simp only [hne, if_false, peek, Array.getElem?_eq_getElem hpos]
    by_cases hle : n ≤ tracker.heapL[0]
    · refine ⟨_, by rw [Option.map_some, if_pos hle], h.insertLeft ?_, le_rfl⟩
      intro b hb
      have htop := h.halves.below _ (Tracks.mem_left hpos) b hb
      exact (Int32.le_iff_toInt_le.mp hle).trans htop
    · refine ⟨_, by rw [Option.map_some, if_neg hle], h.insertRight ?_, by simp⟩
      intro b hb
      have hgt : tracker.heapL[0].toInt < n.toInt := not_le.mp fun hge =>
        hle (Int32.le_iff_toInt_le.mpr hge)
      exact (h.le_left hpos b hb).trans hgt.le

/-- The left size counts the odd element. -/
theorem toNat_half_up (elements : UInt32) :
    (if elements &&& 1 ≠ 0 then elements / 2 + 1 else elements / 2).toNat =
      (elements.toNat + 1) / 2 := by
  have hlt := elements.toNat_lt
  have hhalf : (elements / 2).toNat = elements.toNat / 2 := UInt32.toNat_div _ _
  have hodd : elements &&& 1 = 0 ↔ elements.toNat % 2 = 0 := by
    rw [← UInt32.toNat_inj, UInt32.toNat_and]
    exact Eq.congr_left (Nat.and_one_is_mod _)
  by_cases heven : elements &&& 1 = 0
  · have hmod := hodd.mp heven
    rw [if_neg (not_not_intro heven), hhalf]
    omega
  · have hmod := mt hodd.mpr heven
    rw [if_pos heven, UInt32.toNat_add, hhalf]
    show (elements.toNat / 2 + 1) % 2 ^ 32 = _
    omega

/-- `insert` balances to the halves of the count, which has 32 bits. -/
theorem insert_eq (tracker : MedianTracker) (n : Int32) {total : ℕ}
    (htotal : tracker.heapL.size + tracker.heapR.size = total) :
    tracker.insert n = (tracker.place (UInt32.ofNat total) n).bind fun tracker =>
      tracker.balanceHeaps (((total + 1) % 2 ^ 32 + 1) / 2) ((total + 1) % 2 ^ 32 / 2) := by
  have hcount : (UInt32.ofNat total + 1).toNat = (total + 1) % 2 ^ 32 := by
    rw [UInt32.toNat_add, UInt32.toNat_ofNat']
    exact Nat.mod_add_mod _ _ _
  have hright : ((UInt32.ofNat total + 1) / 2).toNat = (total + 1) % 2 ^ 32 / 2 := by
    rw [UInt32.toNat_div, hcount]
    rfl
  unfold MedianTracker.insert
  simp only [htotal, toNat_half_up, hcount, hright]
  rfl

theorem Balanced.insert (h : Balanced tracker values) (hlt : values.length + 1 < 2 ^ 32)
    (n : Int32) :
    ∃ tracker', tracker.insert n = some tracker' ∧ Balanced tracker' (n.toInt :: values) := by
  rcases h.place (by omega) n with ⟨placed, hplace, hplaced, _⟩
  have hsizes : (values.length + 2) / 2 + (values.length + 1) / 2 =
      (n.toInt :: values).length := by
    rw [List.length_cons]
    omega
  rcases Tracks.balanceHeaps_loop hsizes
    (placed.heapL.size + (values.length + 2) / 2 + 1) placed hplaced (by omega) with
    ⟨tracker', hbalance, htracks, hsize⟩
  refine ⟨tracker', ?_, htracks, hsize⟩
  rw [insert_eq tracker n h.size, hplace, Nat.mod_eq_of_lt hlt]
  exact hbalance

/-- The insertion at which the count wraps leaves the left heap empty. -/
theorem Balanced.insert_wraps (h : Balanced tracker values) (hwrap : values.length + 1 = 2 ^ 32)
    (n : Int32) :
    ∃ tracker', tracker.insert n = some tracker' ∧ tracker'.heapL.size = 0 := by
  have hsize := h.size
  have hleft := h.size_left
  rcases h.place (by omega) n with ⟨placed, hplace, hplaced, hright⟩
  rcases Tracks.balanceHeaps_zero (placed.heapL.size + 0 + 1) placed hplaced (by omega)
    (by omega) with ⟨tracker', hbalance, hempty⟩
  refine ⟨tracker', ?_, hempty⟩
  rw [insert_eq tracker n h.size, hplace, hwrap, Nat.mod_self]
  exact hbalance

/-! ## The median -/

theorem double_half {k : ℤ} (h : |k| ≤ 2 ^ 53) :
    MedianTracker.double ((k : ℚ) / 2) = some ((k : ℚ) / 2) := by
  have hk : (2 : ℚ) * (k / 2) = k := by ring
  unfold MedianTracker.double
  rw [hk, Rat.den_intCast, Rat.num_intCast, if_pos ⟨rfl, h⟩]

theorem double_int {k : ℤ} (h : |k| ≤ 2 ^ 52) : MedianTracker.double k = some (k : ℚ) := by
  have hk : (k : ℚ) = ((2 * k : ℤ) : ℚ) / 2 := by
    rw [Int.cast_mul, Int.cast_ofNat]
    ring
  rw [hk]
  apply double_half
  rw [abs_le] at h ⊢
  omega

/-- The even branch computes the mean of its two roots. -/
theorem mean_eq {l r : ℤ} (hl : |l| ≤ 2 ^ 31) (hr : |r| ≤ 2 ^ 31) :
    ((MedianTracker.double (r * 1)).bind fun scaled =>
      (MedianTracker.double (l + scaled)).bind fun sum => MedianTracker.double (sum / 2)) =
      some (((l : ℚ) + r) / 2) := by
  have hbound := abs_add_le l r
  rw [mul_one, double_int (by omega), Option.bind_some, ← Int.cast_add, double_int (by omega),
    Option.bind_some, double_half (by omega)]

theorem Balanced.median (h : Balanced tracker values) (hne : values ≠ []) :
    tracker.median = some (medianOf values) := by
  have hsize := h.size
  have hleft := h.size_left
  have hlength := List.length_pos_iff.mpr hne
  have hposL : 0 < tracker.heapL.size := by omega
  have hbelow := h.halves.sorted_below (Tracks.mem_left hposL) (h.le_left hposL)
  rw [length_ints, Array.length_toList] at hbelow
  have hloL := tracker.heapL[0].le_toInt
  have hhiL := tracker.heapL[0].toInt_lt
  unfold MedianTracker.median medianOf
  simp only [Nat.and_one_is_mod, hsize, peek, Array.getElem?_eq_getElem hposL]
  by_cases hodd : values.length % 2 = 1
  · have hat : tracker.heapL.size - 1 = values.length / 2 := by omega
    rw [hat] at hbelow
    rw [if_pos (by omega), if_pos hodd, List.getD_eq_getElem?_getD, hbelow]
    apply double_int
    rw [abs_le]
    omega
  · have hposR : 0 < tracker.heapR.size := by omega
    have habove := h.halves.sorted_above (Tracks.mem_right hposR) (h.right_le hposR)
    rw [length_ints, Array.length_toList] at habove
    have hloR := tracker.heapR[0].le_toInt
    have hhiR := tracker.heapR[0].toInt_lt
    have hat : tracker.heapL.size = values.length / 2 := by omega
    rw [hat] at hbelow habove
    rw [if_neg (by omega), if_neg hodd, List.getD_eq_getElem?_getD, List.getD_eq_getElem?_getD,
      hbelow, habove, Array.getElem?_eq_getElem hposR]
    exact mean_eq (by rw [abs_le]; omega) (by rw [abs_le]; omega)

/-! ## Runs of insertions -/

theorem insertAll_append (values : List Int32) (n : Int32) :
    MedianTracker.insertAll (values ++ [n]) =
      (MedianTracker.insertAll values).bind fun tracker => tracker.insert n := by
  unfold MedianTracker.insertAll
  rw [List.foldlM_append]
  simp

theorem insertAll_balanced (values : List Int32) (hlt : values.length < 2 ^ 32) :
    ∃ tracker, MedianTracker.insertAll values = some tracker ∧ Balanced tracker (ints values) := by
  induction values using List.reverseRecOn with
  | nil => exact ⟨MedianTracker.empty, rfl, Balanced.empty⟩
  | append_singleton values n ih =>
    rw [List.length_append, List.length_singleton] at hlt
    rcases ih (by omega) with ⟨tracker, hrun, hbalanced⟩
    rcases hbalanced.insert (by rwa [length_ints]) n with ⟨tracker', hinsert, hnext⟩
    refine ⟨tracker', by rw [insertAll_append, hrun, Option.bind_some, hinsert], ?_⟩
    apply hnext.of_perm
    rw [ints_append]
    exact (List.perm_append_singleton _ _).symm

/-- With as many values as 32 bits count, the median reads an empty heap. -/
theorem median_of_wrap {values : List Int32} (hwrap : values.length = 2 ^ 32) :
    (MedianTracker.insertAll values).bind MedianTracker.median = none := by
  rcases List.eq_nil_or_concat' values with rfl | ⟨init, n, rfl⟩
  · exact absurd hwrap (by decide)
  rw [List.length_append, List.length_singleton] at hwrap
  rcases insertAll_balanced init (by omega) with ⟨tracker, hrun, hbalanced⟩
  rcases hbalanced.insert_wraps (by rwa [length_ints]) n with ⟨tracker', hinsert, hempty⟩
  have hpeek : peek tracker'.heapL = none := Array.getElem?_eq_none (by omega)
  rw [insertAll_append, hrun, Option.bind_some, hinsert, Option.bind_some]
  unfold MedianTracker.median
  rw [hpeek]
  exact ite_self none

/-- Every median of a run is the median of the values inserted so far exactly when the run
is shorter than the count of 32 bits. -/
theorem medians_iff (values : List Int32) :
    (∀ inserted, inserted <+: values → inserted ≠ [] →
      (MedianTracker.insertAll inserted).bind MedianTracker.median =
        some (medianOf (ints inserted))) ↔ values.length < 2 ^ 32 := by
  apply Iff.intro
  · intro hright
    apply Nat.lt_of_not_le
    intro hlong
    have hlength : (values.take (2 ^ 32)).length = 2 ^ 32 := List.length_take_of_le hlong
    have hne : values.take (2 ^ 32) ≠ [] := by
      intro hnil
      rw [hnil] at hlength
      exact absurd hlength (by decide)
    have hmedian := hright _ (List.take_prefix _ _) hne
    rw [median_of_wrap hlength] at hmedian
    cases hmedian
  · intro hlt inserted hinit hne
    rcases insertAll_balanced inserted (hinit.length_le.trans_lt hlt) with
      ⟨tracker, hrun, hbalanced⟩
    rw [hrun, Option.bind_some]
    apply hbalanced.median
    intro hnil
    exact hne (List.map_eq_nil_iff.mp hnil)

/-- As many zeros as a count of 32 bits wraps at. -/
theorem not_medians_all : ¬ ∀ inserted : List Int32, inserted ≠ [] →
    (MedianTracker.insertAll inserted).bind MedianTracker.median =
      some (medianOf (ints inserted)) := by
  intro hright
  have hlength : (List.replicate (2 ^ 32) (0 : Int32)).length = 2 ^ 32 := List.length_replicate
  have hne : List.replicate (2 ^ 32) (0 : Int32) ≠ [] := by
    intro hnil
    rw [hnil] at hlength
    exact absurd hlength (by decide)
  have hmedian := hright _ hne
  rw [median_of_wrap hlength] at hmedian
  cases hmedian

end InterviewQuestions.TrackMedian

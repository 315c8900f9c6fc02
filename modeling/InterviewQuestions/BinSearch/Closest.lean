import InterviewQuestions.BinSearch.Occurrences

/-! The distances that `bin_search_closest` compares, and the indices at which the four functions
read. -/
namespace InterviewQuestions.BinSearch

open Library.Recording

variable {arr : IntArray} {val : Int32} {l r i j : ℤ}

/-- The distance of an element from the value, as an integer. -/
def distance (arr : IntArray) (val : Int32) (i : ℤ) : ℕ :=
  (val.toInt - (arr.memory i).toInt).natAbs

def IsNearest (arr : IntArray) (val : Int32) (i : ℤ) : Prop :=
  arr.InRange i ∧ ∀ j, arr.InRange j → distance arr val i ≤ distance arr val j

/-- Where the value lies between two neighbours, its distance from either is an `int`. -/
def GapFits (arr : IntArray) (val : Int32) : Prop :=
  ∀ i, arr.InRange i → arr.InRange (i + 1) → arr.memory i < val → val < arr.memory (i + 1) →
    distance arr val i < 2 ^ 31 ∧ distance arr val (i + 1) < 2 ^ 31

theorem ensures_int (z : ℤ) :
    (int z).Ensures arr.InRange (fun v => v = z ∧ -2 ^ 31 ≤ z ∧ z < 2 ^ 31)
      fun e => e = .overflow ∧ (z < -2 ^ 31 ∨ 2 ^ 31 ≤ z) := by
  unfold int
  split
  case isTrue h => exact ensures_pure ⟨rfl, h⟩
  case isFalse h => exact ensures_stop ⟨rfl, by omega⟩

theorem ensures_diff (h : arr.InRange i) :
    (diff arr val i).Ensures arr.InRange
      (fun v => v = val.toInt - (arr.memory i).toInt ∧ -2 ^ 31 ≤ v ∧ v < 2 ^ 31)
      fun e => e = .overflow ∧ 2 ^ 31 ≤ distance arr val i := by
  rw [diff]
  refine (ensures_read h).bind ?_
  rintro x rfl
  refine (ensures_int _).mono ?_ ?_
  · rintro v ⟨rfl, hv⟩
    exact ⟨rfl, hv⟩
  · rintro e ⟨rfl, hv⟩
    refine ⟨rfl, ?_⟩
    unfold distance
    omega

/-- Where there is a result, the distance fits an `int`, as the difference need not do. -/
theorem ensures_abs_diff (h : arr.InRange i) :
    (abs (diff arr val i)).Ensures arr.InRange
      (fun v : ℤ => v = distance arr val i ∧ distance arr val i < 2 ^ 31)
      fun e => e = .overflow ∧ 2 ^ 31 ≤ distance arr val i := by
  rw [abs]
  refine (ensures_diff h).bind ?_
  rintro v ⟨hv, hlow, hhigh⟩
  split
  case isTrue hpos =>
    refine (ensures_diff h).mono ?_ fun e he => he
    rintro w ⟨hw, -, -⟩
    unfold distance
    omega
  case isFalse hneg =>
    refine (ensures_diff h).bind ?_
    rintro w ⟨hw, -, -⟩
    refine (ensures_int _).mono ?_ ?_
    · rintro x ⟨rfl, hx⟩
      unfold distance
      omega
    · rintro e ⟨rfl, he⟩
      refine ⟨rfl, ?_⟩
      unfold distance
      omega

/-! ## Nearest elements -/

theorem distance_le_of_le (hi : arr.memory i ≤ val) (hij : arr.memory j ≤ arr.memory i) :
    distance arr val i ≤ distance arr val j := by
  rw [Int32.le_iff_toInt_le] at hi hij
  unfold distance
  omega

theorem distance_le_of_ge (hi : val ≤ arr.memory i) (hij : arr.memory i ≤ arr.memory j) :
    distance arr val i ≤ distance arr val j := by
  rw [Int32.le_iff_toInt_le] at hi hij
  unfold distance
  omega

theorem isNearest_of_mem (h : i ∈ arr.occurrences val) : IsNearest arr val i := by
  refine ⟨h.1, fun j _ => ?_⟩
  unfold distance
  rw [h.2]
  omega

/-- The neighbours of the value are nearer than all elements on their sides. -/
theorem Enclosed.distance_le (h : arr.Sorted) (hlr : Enclosed arr val l r) (hend : l = r + 1)
    (hj : arr.InRange j) :
    j < l ∧ arr.InRange r ∧ distance arr val r ≤ distance arr val j ∨
      r < j ∧ arr.InRange l ∧ distance arr val l ≤ distance arr val j := by
  have hleft := hlr.left
  have hright := hlr.right
  by_cases hjl : j < l
  · have hr : arr.InRange r := ⟨by have := hj.1; omega, hright⟩
    refine Or.inl ⟨hjl, hr, distance_le_of_le ?_ (h j r hj hr (by omega))⟩
    exact Int32.le_of_lt (hlr.before r hr (by omega))
  · have hl : arr.InRange l := ⟨hleft, by have := hj.2; omega⟩
    refine Or.inr ⟨by omega, hl, distance_le_of_ge ?_ (h l j hl hj (by omega))⟩
    exact Int32.le_of_lt (hlr.behind l hl (by omega))

/-- The neighbours between which the value lies are `r` and `l`. -/
theorem Enclosed.gap_iff (hlr : Enclosed arr val l r) (hend : l = r + 1) :
    GapFits arr val ↔ (arr.InRange r → arr.InRange l →
      distance arr val r < 2 ^ 31 ∧ distance arr val l < 2 ^ 31) := by
  subst hend
  constructor
  · intro hgap hr hl
    exact hgap r hr hl (hlr.before r hr (by omega)) (hlr.behind (r + 1) hl (by omega))
  · intro hfits i hi hi' hlt hgt
    obtain rfl : i = r := by
      by_contra hne
      by_cases hir : r < i
      · exact Int32.lt_asymm hlt (hlr.behind i hi hir)
      · exact Int32.lt_asymm hgt (hlr.before (i + 1) hi' (by omega))
    exact hfits hi hi'

theorem gapFits_of_mem (h : arr.Sorted) (hj : j ∈ arr.occurrences val) : GapFits arr val := by
  intro i hi hi' hlt hgt
  exfalso
  by_cases hij : i < j
  · have hle := h (i + 1) j hi' hj.1 (by omega)
    rw [hj.2] at hle
    exact Int32.not_le.mpr hgt hle
  · have hle := h j i hj.1 hi (by omega)
    rw [hj.2] at hle
    exact Int32.not_le.mpr hlt hle

theorem Enclosed.nearest_right (h : arr.Sorted) (hlr : Enclosed arr val l r) (hend : l = r + 1)
    (hl : arr.InRange l) (hle : arr.InRange r → distance arr val l ≤ distance arr val r) :
    IsNearest arr val l := by
  refine ⟨hl, fun j hj => ?_⟩
  rcases hlr.distance_le h hend hj with ⟨-, hr, hj⟩ | ⟨-, -, hj⟩
  · exact (hle hr).trans hj
  · exact hj

theorem Enclosed.nearest_left (h : arr.Sorted) (hlr : Enclosed arr val l r) (hend : l = r + 1)
    (hr : arr.InRange r) (hle : arr.InRange l → distance arr val r ≤ distance arr val l) :
    IsNearest arr val r := by
  refine ⟨hr, fun j hj => ?_⟩
  rcases hlr.distance_le h hend hj with ⟨-, -, hj⟩ | ⟨-, hl, hj⟩
  · exact hj
  · exact (hle hl).trans hj

theorem closest_spec (h : arr.Sorted) (val : Int32) :
    (binSearchClosest arr val).Ensures arr.InRange
      (fun i => GapFits arr val ∧ (0 < arr.arrSz → IsNearest arr val i))
      fun e => e = .overflow ∧ ¬ GapFits arr val := by
  rw [binSearchClosest]
  refine ((narrow_start h val).mono (fun _ hx => hx) fun _ he => he.elim).bind fun exit hexit => ?_
  cases exit with
  | found mid => exact ensures_pure ⟨gapFits_of_mem h hexit, fun _ => isNearest_of_mem hexit⟩
  | crossed l r =>
    obtain ⟨hlr, hend⟩ := hexit
    have hgap := hlr.gap_iff hend
    have hfits := arr.fits
    have hleft := hlr.left
    have hright := hlr.right
    have hsize : (toSize l : ℤ) = l := by
      unfold toSize
      omega
    simp only
    split
    case isTrue hboth =>
      have hl : arr.InRange l := ⟨hleft, by omega⟩
      have hr : arr.InRange r := ⟨hboth.2, hright⟩
      refine ((ensures_abs_diff hl).mono (fun _ hx => hx) ?_).bind ?_
      · rintro e ⟨rfl, he⟩
        exact ⟨rfl, fun hfit => by have := (hgap.mp hfit hr hl).2; omega⟩
      rintro diffL ⟨rfl, hdl⟩
      refine ((ensures_abs_diff hr).mono (fun _ hx => hx) ?_).bind ?_
      · rintro e ⟨rfl, he⟩
        exact ⟨rfl, fun hfit => by have := (hgap.mp hfit hr hl).1; omega⟩
      rintro diffR ⟨rfl, hdr⟩
      refine ensures_pure ⟨hgap.mpr fun _ _ => ⟨hdr, hdl⟩, fun _ => ?_⟩
      split
      case isTrue hlt => exact hlr.nearest_right h hend hl fun _ => by omega
      case isFalse hge => exact hlr.nearest_left h hend hr fun _ => by omega
    case isFalse hboth =>
      have hone : arr.InRange r → ¬ arr.InRange l := fun hr hl => by
        have := hr.1
        have := hl.2
        omega
      have hfit : GapFits arr val := hgap.mpr fun hr hl => absurd hl (hone hr)
      split
      case isTrue hlend =>
        refine ensures_pure ⟨hfit, fun hne => ?_⟩
        have hr : arr.InRange r := ⟨by omega, hright⟩
        exact hlr.nearest_left h hend hr fun hl => absurd hl (hone hr)
      case isFalse hlend =>
        have hneg : r < 0 := by omega
        rw [if_pos hneg]
        refine ensures_pure ⟨hfit, fun hne => ?_⟩
        have hl : arr.InRange l := ⟨hleft, by omega⟩
        exact hlr.nearest_right h hend hl fun hr => absurd hl (hone hr)

theorem closest_correct_iff (h : arr.Sorted) (hne : 0 < arr.arrSz) (val : Int32) :
    (binSearchClosest arr val).out ≠ .error .assertion ∧
      ((∃ i, (binSearchClosest arr val).out = .ok i ∧ IsNearest arr val i) ↔ GapFits arr val) := by
  have hspec := closest_spec h val
  refine ⟨fun hout => ?_, ?_, fun hfit => ?_⟩
  · cases (hspec.error _ hout).1
  · rintro ⟨i, hout, -⟩
    exact (hspec.ok i hout).1
  · cases hout : (binSearchClosest arr val).out with
    | ok i => exact ⟨i, rfl, (hspec.ok i hout).2 hne⟩
    | error e => exact absurd hfit (hspec.error e hout).2

theorem closest_correct_iff_pairInside :
    (binSearchClosest pairInside 7).out ≠ .error .assertion ∧
      ((∃ i, (binSearchClosest pairInside 7).out = .ok i ∧ IsNearest pairInside 7 i) ↔
        GapFits pairInside 7) :=
  closest_correct_iff sorted_pairInside (by decide) 7

/-- The least and the greatest `int`. -/
def extremes : IntArray where
  memory i := if i < 1 then -2147483648 else 2147483647
  arrSz := 2
  fits := by decide

theorem sorted_extremes : extremes.Sorted := by
  intro i j _ _ hij
  simp only [extremes]
  split_ifs <;> first | decide | omega

/-- The distance of 0 from the least `int` is not an `int`. -/
theorem closest_not_correct : ¬ ∀ arr : IntArray, ∀ val, arr.Sorted → 0 < arr.arrSz →
    ∃ i, (binSearchClosest arr val).out = .ok i ∧ IsNearest arr val i := by
  intro hall
  obtain ⟨i, hout, -⟩ := hall extremes 0 sorted_extremes (by decide)
  have hstop : (binSearchClosest extremes 0).out.toOption = none := by decide +kernel
  rw [hout] at hstop
  cases hstop

/-! ## Reads -/

/-- The functions read the array and nothing else. -/
structure ReadsInRange (arr : IntArray) (val : Int32) : Prop where
  search : ∀ i ∈ (binarySearch arr val).log, arr.InRange i
  closest : ∀ i ∈ (binSearchClosest arr val).log, arr.InRange i
  first : ∀ i ∈ (binSearchFirstOccurrence arr val).log, arr.InRange i
  last : ∀ i ∈ (binSearchLastOccurrence arr val).log, arr.InRange i

/-- Only the last one reads before the array, where nothing is at most the value. -/
theorem readsInRange_iff (h : arr.Sorted) (val : Int32) :
    ReadsInRange arr val ↔ 0 < arr.arrSz ∧ arr.memory 0 ≤ val := by
  obtain ⟨l, reads, hlr, hreads, hrun⟩ := last_run h val
  have hl := hlr.left
  have hr := hlr.right
  have hzero (hrange : arr.InRange l) : arr.InRange 0 :=
    ⟨le_refl _, Int.lt_of_le_of_lt hrange.1 hrange.2⟩
  constructor
  · intro hall
    have hrange : arr.InRange l := hall.last l (by rw [hrun]; simp)
    have hbelow := hlr.before 0 (hzero hrange) hrange.1
    exact ⟨Int.natCast_pos.mp (hzero hrange).2, Int32.not_lt.mp (of_decide_eq_true hbelow)⟩
  · rintro ⟨hne, hle⟩
    refine ⟨(binarySearch_spec h val).log, (closest_spec h val).log, (first_spec h val).log, ?_⟩
    have hrange : arr.InRange l := by
      by_contra hout
      unfold IntArray.InRange at hout
      have hbehind := hlr.behind 0 ⟨le_refl _, by omega⟩ (by omega)
      exact of_decide_eq_false hbehind (Int32.not_lt.mpr hle)
    intro i hi
    rw [hrun] at hi
    rcases List.mem_append.mp hi with hi | hi
    · exact hreads i hi
    · rw [List.mem_singleton.mp hi]
      exact hrange

theorem readsInRange_iff_pairInside :
    ReadsInRange pairInside 2 ↔ 0 < pairInside.arrSz ∧ pairInside.memory 0 ≤ 2 :=
  readsInRange_iff sorted_pairInside 2

/-- The last one looks for 0 before the first element. -/
theorem not_readsInRange : ¬ ∀ arr : IntArray, ∀ val, arr.Sorted → ReadsInRange arr val := by
  intro hall
  have hmem : (-1 : ℤ) ∈ (binSearchLastOccurrence pairInside 0).log := by decide +kernel
  have hrange := (hall pairInside 0 sorted_pairInside).last (-1) hmem
  have hneg := hrange.1
  omega

end InterviewQuestions.BinSearch

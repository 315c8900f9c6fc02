import InterviewQuestions.Library.Bisection
import InterviewQuestions.Library.ClosedIntervals
import Mathlib.Data.Real.Basic

/-! `sorting_searching/merge_intervals/solution.cpp`. There is no result where an index is out of
range or a value of the type `int` is too large. -/
namespace InterviewQuestions.MergeIntervals

open Library

/-- `end` is the `stop`. -/
abbrev Interval := Library.Interval ℤ

/-- The `l` that the loop ends with is `r - 1`. -/
def findInterval (intervals : List Interval) (time : ℤ) : Option ℤ := do
  let r ← Bisection.upperBound intervals.length fun m =>
    intervals[m]?.map fun interval => interval.start ≤ time
  if r = 0 then return -1
  else do
    let interval ← intervals[r - 1]?
    if interval.start > time then return -1 else return (r : ℤ) - 1

/-- `for (int i = first; i < limit; i++) res.push_back(intervals[i]);` -/
def pushBack (intervals : List Interval) (first limit : ℤ) (res : List Interval) :
    Option (List Interval) :=
  (List.range' first.toNat (limit - first).toNat).foldlM
    (fun res i => intervals[i]?.map fun interval => res ++ [interval]) res

/-- `nstart`, and `res` with what is pushed on before it is. -/
def newStart (intervals : List Interval) (newInterval : Interval) (before : ℤ)
    (res : List Interval) : Option (List Interval × ℤ) :=
  if before ≠ -1 then
    intervals[before.toNat]?.map fun interval =>
      if newInterval.start > interval.stop then (res ++ [interval], newInterval.start)
      else (res, interval.start)
  else some (res, newInterval.start)

/-- `nend` -/
def newEnd (intervals : List Interval) (newInterval : Interval) (after : ℤ) : Option ℤ :=
  if after ≠ -1 then
    intervals[after.toNat]?.map fun interval =>
      if newInterval.stop < interval.stop then interval.stop else newInterval.stop
  else some newInterval.stop

def insert (intervals : List Interval) (newInterval : Interval) : Option (List Interval) := do
  let before ← findInterval intervals newInterval.start
  let after ← findInterval intervals newInterval.stop
  let res ← pushBack intervals 0 before []
  let (res, nstart) ← newStart intervals newInterval before res
  let nend ← newEnd intervals newInterval after
  pushBack intervals (after + 1) ((intervals.length : ℤ).bmod (2 ^ 32)) (res ++ [⟨nstart, nend⟩])

variable {intervals left stretch right res : List Interval} {newInterval : Interval} {time : ℤ}

/-! ## The neighbours -/

theorem findInterval_append (hleft : ∀ i ∈ left, i.start ≤ time)
    (hright : ∀ i ∈ right, time < i.start) (hsize : (left ++ right).length + 1 < 2 ^ 31) :
    findInterval (left ++ right) time = some ((left.length : ℤ) - 1) := by
  have hbound : Bisection.upperBound (left ++ right).length
      (fun m => (left ++ right)[m]?.map fun interval => decide (interval.start ≤ time)) =
      some left.length := by
    refine Bisection.upperBound_eq_some (fun m hm => ?_) (by simp) hsize
    by_cases hlt : m < left.length
    · have hstart := hleft left[m] (List.getElem_mem hlt)
      rw [List.getElem?_append_left hlt, List.getElem?_eq_getElem hlt, Option.map_some,
        decide_eq_true hstart, decide_eq_true hlt]
    · have hmem : m - left.length < right.length := by
        rw [List.length_append] at hm
        omega
      have hstart := hright right[m - left.length] (List.getElem_mem hmem)
      rw [List.getElem?_append_right (by omega), List.getElem?_eq_getElem hmem, Option.map_some,
        decide_eq_false (by omega), decide_eq_false hlt]
  unfold findInterval
  rw [hbound]
  simp only [Option.bind_eq_bind, Option.bind_some]
  rcases List.eq_nil_or_concat' left with rfl | ⟨init, last, rfl⟩
  · rfl
  · have hlast : (init ++ [last] ++ right)[init.length]? = some last := by simp
    have hstart := hleft last (by simp)
    simp only [List.length_append, List.length_singleton, Nat.add_sub_cancel, hlast,
      Option.bind_some]
    rw [if_neg (by omega), if_neg (by omega)]
    rfl

theorem pushBack_eq (left stretch right res : List Interval) :
    pushBack (left ++ stretch ++ right) left.length (left.length + stretch.length) res =
      some (res ++ stretch) := by
  have hcount : ((left.length : ℤ) + stretch.length - left.length).toNat = stretch.length := by
    omega
  rw [pushBack, hcount, Int.toNat_natCast]
  induction stretch generalizing left res with
  | nil => simp
  | cons i stretch ih =>
    have hhead : (left ++ i :: stretch ++ right)[left.length]? = some i := by simp
    rw [List.length_cons, List.range'_succ, List.foldlM_cons, hhead]
    have hrest := ih (left ++ [i]) (res ++ [i])
    simpa using hrest

/-- All but the last of those before. -/
theorem pushBack_dropLast (left right : List Interval) :
    pushBack (left ++ right) 0 ((left.length : ℤ) - 1) [] = some left.dropLast := by
  rcases List.eq_nil_or_concat' left with rfl | ⟨init, last, rfl⟩
  · rfl
  · have hlimit : (((init ++ [last]).length : ℕ) : ℤ) - 1 = (([] : List Interval).length : ℤ) +
        init.length := by simp
    rw [hlimit, List.dropLast_concat, List.append_assoc]
    exact pushBack_eq [] init ([last] ++ right) []

/-- What is kept of those before, and what is joined from `nstart` on. -/
structure Starts (left : List Interval) (newInterval : Interval) (kept absorbed : List Interval)
    (nstart : ℤ) : Prop where
  eq : left = kept ++ absorbed
  le : nstart ≤ newInterval.start
  stop_lt : ∀ i ∈ kept, i.stop < nstart
  spans : ∀ i ∈ absorbed, nstart ≤ i.start ∧ newInterval.start ≤ i.stop
  meets : nstart = newInterval.start ∨ ∃ i ∈ absorbed, i.start = nstart

theorem newStart_spec (right : List Interval) (h : Library.Interval.Apart left)
    (hleft : ∀ i ∈ left, i.start ≤ newInterval.start) :
    ∃ kept absorbed nstart, newStart (left ++ right) newInterval ((left.length : ℤ) - 1)
      left.dropLast = some (kept, nstart) ∧ Starts left newInterval kept absorbed nstart := by
  rcases List.eq_nil_or_concat' left with rfl | ⟨init, last, rfl⟩
  · exact ⟨[], [], newInterval.start, rfl, rfl, le_rfl, by simp, by simp, .inl rfl⟩
  · have hbefore : (((init ++ [last]).length : ℕ) : ℤ) - 1 = init.length := by simp
    have hlast : (init ++ [last] ++ right)[init.length]? = some last := by simp
    have hstart := hleft last (by simp)
    have hinit : ∀ i ∈ init, i.stop < last.start := fun i hi =>
      (List.pairwise_append.mp h.pairwise).2.2 i hi last (by simp)
    rw [hbefore, List.dropLast_concat, newStart, if_pos (by omega), Int.toNat_natCast, hlast,
      Option.map_some]
    by_cases hmeets : newInterval.start > last.stop
    · rw [if_pos hmeets]
      refine ⟨_, [], _, rfl, by simp, le_rfl, fun i hi => ?_, by simp, .inl rfl⟩
      rcases List.mem_append.mp hi with hi | hi
      · exact (hinit i hi).trans_le hstart
      · rwa [List.mem_singleton.mp hi]
    · rw [if_neg hmeets]
      refine ⟨_, [last], _, rfl, rfl, hstart, hinit, fun i hi => ?_, .inr ⟨last, by simp, rfl⟩⟩
      rw [List.mem_singleton.mp hi]
      exact ⟨le_rfl, not_lt.mp hmeets⟩

/-- `nend` is before what comes after. -/
structure Ends (front right : List Interval) (newInterval : Interval) (nend : ℤ) : Prop where
  le : newInterval.stop ≤ nend
  spans : ∀ i ∈ front, i.stop ≤ nend
  lt_start : ∀ i ∈ right, nend < i.start
  meets : nend = newInterval.stop ∨ ∃ i ∈ front, i.stop = nend ∧ newInterval.stop < i.stop

theorem newEnd_spec (h : Library.Interval.Apart (left ++ right))
    (hleft : ∀ i ∈ left, i.start ≤ newInterval.stop)
    (hright : ∀ i ∈ right, newInterval.stop < i.start) :
    ∃ nend, newEnd (left ++ right) newInterval ((left.length : ℤ) - 1) = some nend ∧
      Ends left right newInterval nend := by
  obtain ⟨hfront, -, hcross⟩ := Library.Interval.apart_append.mp h
  rcases List.eq_nil_or_concat' left with rfl | ⟨init, last, rfl⟩
  · exact ⟨newInterval.stop, rfl, le_rfl, by simp, hright, .inl rfl⟩
  · have hafter : (((init ++ [last]).length : ℕ) : ℤ) - 1 = init.length := by simp
    have hlast : (init ++ [last] ++ right)[init.length]? = some last := by simp
    have hstart := hleft last (by simp)
    have horder := hfront.order last (by simp)
    have hstop : ∀ i ∈ init ++ [last], i.stop ≤ last.stop := by
      intro i hi
      rcases List.mem_append.mp hi with hi | hi
      · have hlt := (List.pairwise_append.mp hfront.pairwise).2.2 i hi last (by simp)
        omega
      · rw [List.mem_singleton.mp hi]
    rw [hafter, newEnd, if_pos (by omega), Int.toNat_natCast, hlast, Option.map_some]
    by_cases hlt : newInterval.stop < last.stop
    · rw [if_pos hlt]
      exact ⟨_, rfl, hlt.le, hstop, hcross last (by simp), .inr ⟨last, by simp, rfl, hlt⟩⟩
    · rw [if_neg hlt]
      exact ⟨_, rfl, le_rfl, fun i hi => (hstop i hi).trans (not_lt.mp hlt), hright, .inl rfl⟩

/-! ## `insert` -/

/-- `res` is in order, and covers what the intervals and the new one cover. -/
def Inserts (intervals : List Interval) (newInterval : Interval) : Prop :=
  ∃ res, insert intervals newInterval = some res ∧ Library.Interval.Apart res ∧
    Library.Interval.covered ((↑) : ℤ → ℝ) res =
      Library.Interval.covered ((↑) : ℤ → ℝ) intervals ∪
        Set.Icc (newInterval.start : ℝ) newInterval.stop

theorem Starts.joins {kept absorbed : List Interval} {nstart nend : ℤ}
    (hstarts : Starts left newInterval kept absorbed nstart)
    (hends : Ends (left ++ stretch) right newInterval nend)
    (hnew : newInterval.start ≤ newInterval.stop)
    (hfront : ∀ i ∈ left ++ stretch, i.start ≤ newInterval.stop)
    (hstretch : ∀ i ∈ stretch, newInterval.start < i.start) :
    Library.Interval.Joins (absorbed ++ stretch) newInterval ⟨nstart, nend⟩ where
  start_le := hstarts.le
  le_stop := hends.le
  spans i hi := by
    rcases List.mem_append.mp hi with hi | hi
    · have hmem : i ∈ left ++ stretch := by
        rw [hstarts.eq]
        simp [hi]
      exact ⟨(hstarts.spans i hi).1, hends.spans i hmem⟩
    · exact ⟨hstarts.le.trans (hstretch i hi).le, hends.spans i (List.mem_append_right _ hi)⟩
  start_meets := by
    rcases hstarts.meets with heq | ⟨i, hi, heq⟩
    · exact .inl heq
    · exact .inr ⟨i, List.mem_append_left _ hi, heq, (hstarts.spans i hi).2⟩
  stop_meets := by
    rcases hends.meets with heq | ⟨i, hi, heq, hlt⟩
    · exact .inl heq
    · refine .inr ⟨i, ?_, heq, hfront i hi⟩
      rw [hstarts.eq, List.append_assoc] at hi
      rcases List.mem_append.mp hi with hkept | hrest
      · have hstop := hstarts.stop_lt i hkept
        have hle := hstarts.le
        omega
      · exact hrest

theorem inserts_of_length (h : Library.Interval.Apart intervals)
    (hnew : newInterval.start ≤ newInterval.stop) (hsize : intervals.length + 1 < 2 ^ 31) :
    Inserts intervals newInterval := by
  obtain ⟨left, rest, rfl, hleft, hrest⟩ := h.exists_split newInterval.start
  obtain ⟨hfirst, hlater, -⟩ := Library.Interval.apart_append.mp h
  obtain ⟨stretch, right, rfl, hstretch, hright⟩ := hlater.exists_split newInterval.stop
  have hfront : ∀ i ∈ left ++ stretch, i.start ≤ newInterval.stop := by
    intro i hi
    rcases List.mem_append.mp hi with hi | hi
    · exact (hleft i hi).trans hnew
    · exact hstretch i hi
  have hbefore := findInterval_append hleft hrest hsize
  rw [← List.append_assoc] at h hsize ⊢
  obtain ⟨kept, absorbed, nstart, hnstart, hstarts⟩ :=
    newStart_spec (stretch ++ right) hfirst hleft
  obtain ⟨nend, hnend, hends⟩ := newEnd_spec h hfront hright
  have hafter := findInterval_append hfront hright hsize
  have hpush := pushBack_dropLast left (stretch ++ right)
  have hlast := pushBack_eq (left ++ stretch) right [] (kept ++ [⟨nstart, nend⟩])
  have hjoins := hstarts.joins hends hnew hfront fun i hi => hrest i (List.mem_append_left _ hi)
  have hparts : left ++ stretch ++ right = kept ++ (absorbed ++ stretch) ++ right := by
    rw [hstarts.eq, List.append_assoc kept]
  refine ⟨kept ++ [⟨nstart, nend⟩] ++ right, ?_, ?_, ?_⟩
  · rw [← List.append_assoc] at hbefore hpush hnstart
    have hlimit : (((left ++ stretch ++ right).length : ℕ) : ℤ).bmod (2 ^ 32) =
        ((left ++ stretch).length : ℕ) + right.length := by
      have hlength : (left ++ stretch ++ right).length = (left ++ stretch).length + right.length :=
        List.length_append
      rw [Bisection.bmod_of_lt (by omega)]
      omega
    rw [List.append_nil] at hlast
    unfold insert
    rw [hlimit]
    simp only [hbefore, hafter, hpush, hnstart, hnend, Option.bind_eq_bind, Option.bind_some,
      Int.sub_add_cancel, hlast]
  · rw [hparts] at h
    exact h.replace (hstarts.le.trans (hnew.trans hends.le)) hstarts.stop_lt hends.lt_start
  · rw [hparts, hjoins.covered_replace Int.cast_mono,
      Library.Interval.covered_singleton]

example : insert [⟨1, 2⟩, ⟨3, 5⟩, ⟨6, 7⟩, ⟨8, 10⟩, ⟨12, 16⟩] ⟨4, 9⟩ =
    some [⟨1, 2⟩, ⟨3, 10⟩, ⟨12, 16⟩] := by decide

/-! ## Sizes that are no `int` -/

/-- `r-l` is no `int`, or `m` is below zero. -/
theorem findInterval_eq_none (hlow : 2 ^ 31 ≤ intervals.length + 1)
    (hhigh : intervals.length < 2 ^ 32) : findInterval intervals time = none := by
  unfold findInterval
  rcases Nat.eq_or_lt_of_le hlow with heq | hlt
  · rw [Bisection.upperBound_eq_none _ heq.symm]
    rfl
  · rw [Bisection.upperBound_eq_none_of_neg _ (by omega) hhigh]
    rfl

theorem insert_eq_none (hlow : 2 ^ 31 ≤ intervals.length + 1) (hhigh : intervals.length < 2 ^ 32) :
    insert intervals newInterval = none := by
  unfold insert
  rw [findInterval_eq_none hlow hhigh]
  rfl

/-- The size is taken for zero. -/
theorem insert_of_two_pow (hsize : intervals.length = 2 ^ 32) :
    insert intervals newInterval = some [newInterval] := by
  have hfind (time : ℤ) : findInterval intervals time = some (-1) := by
    unfold findInterval
    rw [hsize, Bisection.upperBound_two_pow]
    rfl
  unfold insert
  simp only [hfind, hsize, Option.bind_eq_bind, Option.bind_some]
  rfl

/-- An interval between two `int`s. -/
structure Valid (interval : Interval) : Prop where
  low : -2 ^ 31 ≤ interval.start
  order : interval.start ≤ interval.stop
  high : interval.stop < 2 ^ 31

theorem inserts_iff_of_two_pow (h : Library.Interval.Apart intervals)
    (hvalid : ∀ i ∈ intervals, Valid i) (hnew : Valid newInterval)
    (hsize : intervals.length = 2 ^ 32) :
    Inserts intervals newInterval ↔ newInterval = ⟨-2 ^ 31, 2 ^ 31 - 1⟩ := by
  have hall {t : ℤ} (hlow : -2 ^ 31 ≤ t) (hhigh : t ≤ 2 ^ 31 - 1) :
      (t : ℝ) ∈ Library.Interval.covered ((↑) : ℤ → ℝ) intervals := by
    obtain ⟨i, hi, hstart, hstop⟩ := h.covered_of_length (fun i hi => (hvalid i hi).low)
      (fun i hi => Int.le_sub_one_of_lt (hvalid i hi).high) (by omega) hlow hhigh
    exact ⟨i, hi, Int.cast_le.mpr hstart, Int.cast_le.mpr hstop⟩
  constructor
  · rintro ⟨res, hres, -, hcovered⟩
    rw [insert_of_two_pow hsize, Option.some.injEq] at hres
    rw [← hres, Library.Interval.covered_singleton] at hcovered
    have hmem {t : ℤ} (hlow : -2 ^ 31 ≤ t) (hhigh : t ≤ 2 ^ 31 - 1) :
        newInterval.start ≤ t ∧ t ≤ newInterval.stop := by
      have ht : (t : ℝ) ∈ Set.Icc (newInterval.start : ℝ) newInterval.stop :=
        hcovered ▸ .inl (hall hlow hhigh)
      exact ⟨Int.cast_le.mp ht.1, Int.cast_le.mp ht.2⟩
    have hstart := (hmem (t := -2 ^ 31) le_rfl (by omega)).1
    have hstop := (hmem (t := 2 ^ 31 - 1) (by omega) le_rfl).2
    exact Library.Interval.ext (le_antisymm hstart hnew.low)
      (le_antisymm (Int.le_sub_one_of_lt hnew.high) hstop)
  · rintro rfl
    refine ⟨_, insert_of_two_pow hsize, ⟨by simp, List.pairwise_singleton _ _⟩, ?_⟩
    rw [Library.Interval.covered_singleton, Set.union_eq_self_of_subset_left]
    rintro t ⟨i, hi, hstart, hstop⟩
    exact ⟨(Int.cast_le.mpr (hvalid i hi).low).trans hstart,
      hstop.trans (Int.cast_le.mpr (Int.le_sub_one_of_lt (hvalid i hi).high))⟩

theorem length_le (h : Library.Interval.Apart intervals) (hvalid : ∀ i ∈ intervals, Valid i) :
    intervals.length ≤ 2 ^ 32 := by
  have hle := h.length_le (fun i hi => (hvalid i hi).low)
    (fun i hi => Int.le_sub_one_of_lt (hvalid i hi).high) (by omega)
  omega

theorem inserts_iff (h : Library.Interval.Apart intervals) (hvalid : ∀ i ∈ intervals, Valid i)
    (hnew : Valid newInterval) : Inserts intervals newInterval ↔
      intervals.length + 1 < 2 ^ 31 ∨
        (intervals.length = 2 ^ 32 ∧ newInterval = ⟨-2 ^ 31, 2 ^ 31 - 1⟩) := by
  have hlength := length_le h hvalid
  by_cases hsmall : intervals.length + 1 < 2 ^ 31
  · exact iff_of_true (inserts_of_length h hnew.order hsmall) (.inl hsmall)
  · rw [or_iff_right hsmall]
    by_cases hfull : intervals.length = 2 ^ 32
    · rw [and_iff_right hfull]
      exact inserts_iff_of_two_pow h hvalid hnew hfull
    · refine iff_of_false ?_ fun hboth => hfull hboth.1
      rintro ⟨res, hres, -⟩
      rw [insert_eq_none (by omega) (by omega)] at hres
      cases hres

/-- The input of the first example. -/
def firstExample : List Interval := [⟨1, 3⟩, ⟨6, 9⟩]

theorem inserts_iff_firstExample : (Library.Interval.Apart firstExample ∧
    (∀ i ∈ firstExample, Valid i) ∧ Valid ⟨2, 5⟩) ∧
      (Inserts firstExample ⟨2, 5⟩ ↔ firstExample.length + 1 < 2 ^ 31 ∨
        (firstExample.length = 2 ^ 32 ∧ (⟨2, 5⟩ : Interval) = ⟨-2 ^ 31, 2 ^ 31 - 1⟩)) := by
  have hapart : Library.Interval.Apart firstExample := ⟨by decide, by decide⟩
  have hvalid : ∀ i ∈ firstExample, Valid i := by
    intro i hi
    simp only [firstExample, List.mem_cons, List.not_mem_nil, or_false] at hi
    rcases hi with rfl | rfl
    · exact ⟨by decide, by decide, by decide⟩
    · exact ⟨by decide, by decide, by decide⟩
  have hnew : Valid ⟨2, 5⟩ := ⟨by decide, by decide, by decide⟩
  exact ⟨⟨hapart, hvalid, hnew⟩, inserts_iff hapart hvalid hnew⟩

/-- `[0, 0], [1, 1], [2, 2], ...` -/
def points (n : ℕ) : List Interval := (List.range n).map fun k : ℕ => ⟨(k : ℤ), (k : ℤ)⟩

theorem length_points (n : ℕ) : (points n).length = n := by
  rw [points, List.length_map, List.length_range]

theorem apart_points (n : ℕ) : Library.Interval.Apart (points n) := by
  refine ⟨fun i hi => ?_, ?_⟩
  · obtain ⟨k, -, rfl⟩ := List.mem_map.mp hi
    exact le_rfl
  · rw [points, List.pairwise_map]
    exact List.pairwise_lt_range.imp Int.ofNat_lt.mpr

theorem valid_points (n : ℕ) (hn : n ≤ 2 ^ 31) : ∀ i ∈ points n, Valid i := by
  intro i hi
  obtain ⟨k, hk, rfl⟩ := List.mem_map.mp hi
  have hlt := List.mem_range.mp hk
  have hlow : -2 ^ 31 ≤ (k : ℤ) := by omega
  have hhigh : (k : ℤ) < 2 ^ 31 := by omega
  exact ⟨hlow, le_rfl, hhigh⟩

theorem not_inserts_points : (Library.Interval.Apart (points (2 ^ 31 - 1)) ∧
    (∀ i ∈ points (2 ^ 31 - 1), Valid i) ∧ Valid ⟨0, 0⟩) ∧
      ¬ Inserts (points (2 ^ 31 - 1)) ⟨0, 0⟩ := by
  refine ⟨⟨apart_points _, valid_points _ (by omega), by decide, le_rfl, by decide⟩, ?_⟩
  rintro ⟨res, hres, -⟩
  rw [insert_eq_none (by rw [length_points]; omega) (by rw [length_points]; omega)] at hres
  cases hres

end InterviewQuestions.MergeIntervals

import InterviewQuestions.Library.MonotoneQueue

/-! `arrays_strings/sliding_window/solution.cpp`. The integers are only compared. An index carries
that it is one of the stream's, and there is no result where `maxs.front()` has nothing to
return. -/
namespace InterviewQuestions.SlidingWindow

open Library MonotoneQueue

variable (stream : List ℤ) (windowSz : ℕ)

/-- The loop that pops from the back, and `push_back`. -/
def push (maxs : List (Fin stream.length)) (i : Fin stream.length) : List (Fin stream.length) :=
  maxs.rdropWhile (fun j => stream.get j ≤ stream.get i) ++ [i]

/-- The loop that pops from the front. -/
def popFront (maxs : List (Fin stream.length)) (i : Fin stream.length) :
    List (Fin stream.length) :=
  maxs.dropWhile fun j => j.val ≤ i.val - windowSz

/-- The second loop; `res` gets what it returns. -/
def slide : List (Fin stream.length) → List (Fin stream.length) → Option (List ℤ)
  | [], _ => some []
  | i :: rest, maxs =>
      let maxs := push stream (popFront stream windowSz maxs i) i
      match maxs.head? with
      | none => none
      | some front => (slide rest maxs).map (stream.get front :: ·)

def maxSlidingWindow : Option (List ℤ) :=
  let indices := List.finRange stream.length
  let maxs := (indices.take windowSz).foldl (push stream) []
  match maxs.head? with
  | none => none
  | some front => (slide stream windowSz (indices.drop windowSz) maxs).map (stream.get front :: ·)

/-! ## Windows -/

/-- The indices of the window that begins at `k`. -/
def window (k : ℕ) : List (Fin stream.length) :=
  ((List.finRange stream.length).drop k).take windowSz

/-- The greatest of the window that begins at `k`. -/
def IsMax (k : ℕ) (v : ℤ) : Prop :=
  v ∈ (stream.drop k).take windowSz ∧ ∀ u ∈ (stream.drop k).take windowSz, u ≤ v

variable {stream windowSz} {k : ℕ} {maxs : List (Fin stream.length)} {i : Fin stream.length}

theorem map_window (k : ℕ) :
    (window stream windowSz k).map stream.get = (stream.drop k).take windowSz := by
  rw [window, List.map_take, List.map_drop, List.map_get_finRange]

theorem drop_finRange {n : ℕ} (hk : k < n) :
    (List.finRange n).drop k = ⟨k, hk⟩ :: (List.finRange n).drop (k + 1) := by
  rw [List.drop_eq_getElem_cons (by rwa [List.length_finRange]), List.getElem_finRange]
  rfl

theorem le_of_mem_drop_finRange {n : ℕ} {j : Fin n} (h : j ∈ (List.finRange n).drop k) :
    k ≤ j.val := by
  have ⟨t, ht, hj⟩ := List.mem_iff_getElem.mp h
  rw [List.getElem_drop, List.getElem_finRange] at hj
  rw [← hj]
  exact Nat.le_add_right k t

/-- A window without its first index, and the next index behind it, is the next window. -/
theorem window_succ (hnext : k + (windowSz + 1) < stream.length) :
    ∃ rest, window stream (windowSz + 1) k = ⟨k, by omega⟩ :: rest ∧
      (∀ j ∈ rest, k < j.val) ∧
      window stream (windowSz + 1) (k + 1) = rest ++ [⟨k + (windowSz + 1), hnext⟩] := by
  refine ⟨((List.finRange stream.length).drop (k + 1)).take windowSz, ?_, fun j hj => ?_, ?_⟩
  · rw [window, drop_finRange (by omega), List.take_succ_cons]
  · exact le_of_mem_drop_finRange (List.mem_of_mem_take hj)
  · have hlength : windowSz < ((List.finRange stream.length).drop (k + 1)).length := by
      rw [List.length_drop, List.length_finRange]
      omega
    rw [window, List.take_succ_eq_append_getElem hlength, List.getElem_drop,
      List.getElem_finRange]
    congr 3
    exact Fin.ext (by simp; omega)

theorem foldl_push (indices : List (Fin stream.length)) :
    indices.foldl (push stream) [] = leaders stream.get indices := by
  induction indices using List.reverseRecOn with
  | nil => rfl
  | append_singleton indices i ih => rw [List.foldl_append, List.foldl_cons, List.foldl_nil, ih,
      leaders_concat, push]

theorem push_popFront (hnext : k + (windowSz + 1) < stream.length) :
    push stream (popFront stream (windowSz + 1) (leaders stream.get
      (window stream (windowSz + 1) k)) ⟨k + (windowSz + 1), hnext⟩) ⟨k + (windowSz + 1), hnext⟩ =
      leaders stream.get (window stream (windowSz + 1) (k + 1)) := by
  have ⟨rest, hwindow, hrest, hsucc⟩ := window_succ hnext
  rw [hwindow, hsucc, leaders_concat, push, popFront, dropWhile_leaders]
  · simp
  · intro j hj
    have hlt := hrest j hj
    simp
    omega

theorem exists_front (stream : List ℤ) (windowSz : ℕ) (hk : k < stream.length) : ∃ front,
    (leaders stream.get (window stream (windowSz + 1) k)).head? = some front ∧
      IsMax stream (windowSz + 1) k (stream.get front) := by
  have hne : window stream (windowSz + 1) k ≠ [] := by
    rw [window, drop_finRange hk]
    exact List.cons_ne_nil _ _
  have ⟨front, hfront, hmem, hgreatest⟩ := exists_head?_leaders (a := stream.get) hne
  refine ⟨front, hfront, ?_⟩
  rw [IsMax, ← map_window]
  exact ⟨List.mem_map_of_mem hmem, List.forall_mem_map.mpr hgreatest⟩

/-- The loop from the window at `k` on. -/
theorem slide_spec (stream : List ℤ) (windowSz k : ℕ) : ∃ out,
    slide stream (windowSz + 1) ((List.finRange stream.length).drop (k + (windowSz + 1)))
      (leaders stream.get (window stream (windowSz + 1) k)) = some out ∧
    out.length = stream.length - (k + (windowSz + 1)) ∧
    ∀ j (hj : j < out.length), IsMax stream (windowSz + 1) (k + 1 + j) out[j] := by
  by_cases hnext : k + (windowSz + 1) < stream.length
  · have ⟨front, hfront, hmax⟩ := exists_front stream windowSz (k := k + 1) (by omega)
    have ⟨out, hslide, hlength, hout⟩ := slide_spec stream windowSz (k + 1)
    refine ⟨stream.get front :: out, ?_, ?_, ?_⟩
    · rw [drop_finRange hnext, slide, push_popFront hnext]
      simp only [hfront]
      rw [show k + (windowSz + 1) + 1 = k + 1 + (windowSz + 1) by omega, hslide, Option.map_some]
    · rw [List.length_cons, hlength]
      omega
    · intro j hj
      cases j with
      | zero => exact hmax
      | succ j =>
        have hrest := hout j (Nat.lt_of_succ_lt_succ hj)
        rw [List.getElem_cons_succ, show k + 1 + (j + 1) = k + 1 + 1 + j by omega]
        exact hrest
  · refine ⟨[], ?_, ?_, nofun⟩
    · rw [List.drop_eq_nil_of_le (by rw [List.length_finRange]; omega), slide]
    · rw [List.length_nil]
      omega
termination_by stream.length - k

/-- There is a result for each stream and window that are not empty, with the greatest value of
each window in its place; a window that is larger than the stream is the whole stream. -/
theorem max_sliding_window (stream : List ℤ) (windowSz : ℕ) :
    match maxSlidingWindow stream windowSz with
    | none => stream = [] ∨ windowSz = 0
    | some res => (stream ≠ [] ∧ windowSz ≠ 0) ∧ res.length = stream.length - windowSz + 1 ∧
        ∀ k (hk : k < res.length), res[k] ∈ (stream.drop k).take windowSz ∧
          ∀ v ∈ (stream.drop k).take windowSz, v ≤ res[k] := by
  rw [maxSlidingWindow]
  simp only [foldl_push]
  cases windowSz with
  | zero => simp [leaders]
  | succ windowSz =>
    cases hempty : stream with
    | nil => simp [leaders]
    | cons v rest =>
      rw [← hempty]
      have hpos : 0 < stream.length := by
        rw [hempty]
        exact Nat.zero_lt_succ _
      obtain ⟨front, hfront, hmax⟩ := exists_front stream windowSz hpos
      obtain ⟨out, hslide, hlength, hout⟩ := slide_spec stream windowSz 0
      rw [window, List.drop_zero] at hfront hslide
      rw [Nat.zero_add] at hslide hlength
      simp only [hfront, hslide, Option.map_some]
      refine ⟨⟨List.ne_nil_of_length_pos hpos, Nat.succ_ne_zero windowSz⟩, ?_, ?_⟩
      · rw [List.length_cons, hlength]
      · intro k hk
        cases k with
        | zero => exact hmax
        | succ k =>
          have hrest := hout k (Nat.lt_of_succ_lt_succ hk)
          rw [Nat.zero_add, Nat.add_comm 1 k] at hrest
          exact hrest

end InterviewQuestions.SlidingWindow

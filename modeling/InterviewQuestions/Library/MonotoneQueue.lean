import Mathlib

/-! Windows over a sequence. What is left of a window, when each entry that a later one is not
below has been dropped, has the greatest entry in front. -/
namespace InterviewQuestions.Library.MonotoneQueue

variable {ι α : Type*} [LinearOrder α] (a : ι → α) {window : List ι} {x y : ι}

/-- The entries of a window that all later ones are below. -/
def leaders : List ι → List ι
  | [] => []
  | x :: window => if ∀ y ∈ window, a y < a x then x :: leaders window else leaders window

variable {a}

theorem leaders_cons_pos (h : ∀ y ∈ window, a y < a x) :
    leaders a (x :: window) = x :: leaders a window := by
  rw [leaders, if_pos h]

theorem leaders_cons_neg (h : ¬ ∀ y ∈ window, a y < a x) :
    leaders a (x :: window) = leaders a window := by
  rw [leaders, if_neg h]

theorem mem_of_mem_leaders (h : y ∈ leaders a window) : y ∈ window := by
  induction window with
  | nil => exact h
  | cons x window ih =>
    by_cases hx : ∀ y ∈ window, a y < a x
    · rw [leaders_cons_pos hx, List.mem_cons] at h
      exact List.mem_cons.mpr (h.imp_right ih)
    · rw [leaders_cons_neg hx] at h
      exact List.mem_cons_of_mem x (ih h)

theorem rdropWhile_cons_of_neg {p : ι → Bool} (hx : ¬ p x = true) (l : List ι) :
    (x :: l).rdropWhile p = x :: l.rdropWhile p := by
  rw [List.rdropWhile, List.rdropWhile, List.reverse_cons, List.dropWhile_append]
  split
  case isTrue hempty =>
    rw [List.isEmpty_iff.mp hempty, List.dropWhile_cons_of_neg hx]
    rfl
  case isFalse => rw [List.reverse_append, List.reverse_singleton, List.singleton_append]

/-- A new entry drops those at the back that it is not below. -/
theorem leaders_concat (x : ι) : leaders a (window ++ [x]) =
    (leaders a window).rdropWhile (fun y => a y ≤ a x) ++ [x] := by
  induction window with
  | nil => rw [List.nil_append, leaders_cons_pos (by simp), leaders, List.rdropWhile_nil,
      List.nil_append]
  | cons z window ih =>
    rw [List.cons_append]
    by_cases hz : ∀ y ∈ window, a y < a z
    · rw [leaders_cons_pos hz]
      by_cases hx : a x < a z
      · rw [rdropWhile_cons_of_neg (by simpa using hx), leaders_cons_pos, ih, List.cons_append]
        intro y hy
        rcases List.mem_append.mp hy with hold | hnew
        · exact hz y hold
        · rw [List.mem_singleton.mp hnew]
          exact hx
      · have hdrop {l : List ι} (hl : ∀ y ∈ l, a y ≤ a z) :
            l.rdropWhile (fun y => a y ≤ a x) = [] := by
          rw [List.rdropWhile_eq_nil_iff]
          intro y hy
          simpa using (hl y hy).trans (not_lt.mp hx)
        have hle (y : ι) (hy : y ∈ leaders a window) : a y ≤ a z :=
          (hz y (mem_of_mem_leaders hy)).le
        rw [leaders_cons_neg, ih, hdrop hle, hdrop (List.forall_mem_cons.mpr ⟨le_rfl, hle⟩)]
        intro hall
        exact hx (hall x (List.mem_append_right window List.mem_cons_self))
    · rw [leaders_cons_neg hz, leaders_cons_neg, ih]
      intro hall
      exact hz fun y hy => hall y (List.mem_append_left [x] hy)

/-- The first entry of a window is dropped from the front, if it is there. -/
theorem dropWhile_leaders {p : ι → Bool} (hx : p x = true) (hwindow : ∀ y ∈ window, ¬ p y = true) :
    (leaders a (x :: window)).dropWhile p = leaders a window := by
  have hkeep : (leaders a window).dropWhile p = leaders a window := by
    cases hleaders : leaders a window with
    | nil => rfl
    | cons y rest =>
      have hy : y ∈ window := mem_of_mem_leaders (by rw [hleaders]; exact List.mem_cons_self)
      rw [List.dropWhile_cons_of_neg (hwindow y hy)]
  by_cases hlead : ∀ y ∈ window, a y < a x
  · rw [leaders_cons_pos hlead, List.dropWhile_cons_of_pos hx, hkeep]
  · rw [leaders_cons_neg hlead, hkeep]

/-- The front is the greatest entry. -/
theorem exists_head?_leaders (hwindow : window ≠ []) :
    ∃ m, (leaders a window).head? = some m ∧ m ∈ window ∧ ∀ y ∈ window, a y ≤ a m := by
  induction window with
  | nil => exact absurd rfl hwindow
  | cons x window ih =>
    by_cases hx : ∀ y ∈ window, a y < a x
    · rw [leaders_cons_pos hx]
      exact ⟨x, rfl, List.mem_cons_self,
        List.forall_mem_cons.mpr ⟨le_rfl, fun y hy => (hx y hy).le⟩⟩
    · rw [leaders_cons_neg hx]
      have ⟨y, hy, hxy⟩ : ∃ y ∈ window, a x ≤ a y := by
        by_contra hnone
        exact hx fun y hy => not_le.mp fun hle => hnone ⟨y, hy, hle⟩
      have ⟨m, hm, hmem, hgreatest⟩ := ih (List.ne_nil_of_mem hy)
      exact ⟨m, hm, List.mem_cons_of_mem x hmem,
        List.forall_mem_cons.mpr ⟨hxy.trans (hgreatest y hy), hgreatest⟩⟩

end InterviewQuestions.Library.MonotoneQueue

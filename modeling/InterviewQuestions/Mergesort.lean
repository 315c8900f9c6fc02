import InterviewQuestions.Library.Rearrangement
import Mathlib.Data.Int.Order.Basic
import Mathlib.Data.List.Perm.Basic

/-! `sorting/mergesort/mergesort.c`. There is no result where an index is out of range. -/
namespace InterviewQuestions.Mergesort

/-- `arr[i] = x;` -/
def store (arr : List ℤ) (i : ℕ) (x : ℤ) : Option (List ℤ) :=
  if i < arr.length then some (arr.set i x) else none

/-- `memcpy(&dst[i], &src[i], sizeof(src[0])*n);` -/
def memcpy (dst src : List ℤ) (i n : ℕ) : Option (List ℤ) :=
  if i + n ≤ dst.length ∧ i + n ≤ src.length then
    some (dst.take i ++ ((src.drop i).take n ++ dst.drop (i + n)))
  else none

structure Merge where
  arr : List ℤ
  leftI : ℕ
  rightI : ℕ
  cursor : ℕ

/-- The first loop of the merge. There is no result where the fuel does not last for it. -/
def mergeBoth (helper : List ℤ) (middle high : ℕ) : ℕ → Merge → Option Merge
  | 0, _ => none
  | fuel + 1, s =>
      if s.leftI < middle + 1 ∧ s.rightI < high + 1 then do
        let x ← helper[s.leftI]?
        let y ← helper[s.rightI]?
        if x < y then
          let arr ← store s.arr s.cursor x
          mergeBoth helper middle high fuel
            { s with arr := arr, leftI := s.leftI + 1, cursor := s.cursor + 1 }
        else
          let arr ← store s.arr s.cursor y
          mergeBoth helper middle high fuel
            { s with arr := arr, rightI := s.rightI + 1, cursor := s.cursor + 1 }
      else some s

/-- The second loop of the merge. -/
def mergeLeft (helper : List ℤ) (middle : ℕ) : ℕ → Merge → Option Merge
  | 0, _ => none
  | fuel + 1, s =>
      if s.leftI < middle + 1 then do
        let x ← helper[s.leftI]?
        let arr ← store s.arr s.cursor x
        mergeLeft helper middle fuel
          { s with arr := arr, leftI := s.leftI + 1, cursor := s.cursor + 1 }
      else some s

structure Arrays where
  arr : List ℤ
  helper : List ℤ

/-- A loop has no more than `rounds` rounds, and the calls nest no deeper than the fuel. -/
def mergesortAux (rounds : ℕ) : ℕ → Arrays → ℕ → ℕ → Option Arrays
  | 0, _, _, _ => none
  | fuel + 1, s, low, high =>
      if low ≥ high then some s
      else do
        let middle := (low + high) / 2
        let s ← mergesortAux rounds fuel s low middle
        let s ← mergesortAux rounds fuel s (middle + 1) high
        let helper ← memcpy s.helper s.arr low (high - low + 1)
        let m : Merge := { arr := s.arr, leftI := low, rightI := middle + 1, cursor := low }
        let m ← mergeBoth helper middle high rounds m
        let m ← mergeLeft helper middle rounds m
        return { arr := m.arr, helper := helper }

/-- There is no result where the assertion fails. The entries of `aux` are what they happen
to be. -/
def mergesort (fuel : ℕ) (arr aux : List ℤ) : Option (List ℤ) :=
  if arr.length > 0 then
    (mergesortAux fuel fuel ⟨arr, aux⟩ 0 (arr.length - 1)).map Arrays.arr
  else none

/-! `mergesort` sorts. What is left of the right half is where it belongs. -/

open Library

variable {front back helper done gap left right : List ℤ} {middle high fuel : ℕ} {s : Merge}

/-- The entries from an index on. -/
theorem of_prefix_drop {arr : List ℤ} {i : ℕ} {x : ℤ} {xs : List ℤ} (h : x :: xs <+: arr.drop i) :
    arr[i]? = some x ∧ xs <+: arr.drop (i + 1) := by
  obtain ⟨rest, hrest⟩ := h
  constructor
  · rw [← Nat.add_zero i, ← List.getElem?_drop, ← hrest]
    rfl
  · rw [← List.tail_drop, ← hrest]
    exact List.prefix_append xs rest

theorem store_append (front : List ℤ) (x y : ℤ) (back : List ℤ) :
    store (front ++ x :: back) front.length y = some (front ++ y :: back) := by
  have hlt : front.length < (front ++ x :: back).length := by simp
  rw [store, if_pos hlt, set_append_cons]

/-! ## The merge -/

/-- The range during the merge: what is merged, a gap as long as what is left of the left half, and
what is left of the right half. -/
structure Merging (front done gap left right back helper : List ℤ) (middle high : ℕ) (s : Merge) :
    Prop where
  arr : s.arr = front ++ (done ++ (gap ++ (right ++ back)))
  gap_length : gap.length = left.length
  cursor : s.cursor = front.length + done.length
  left_prefix : left <+: helper.drop s.leftI
  right_prefix : right <+: helper.drop s.rightI
  left_end : s.leftI + left.length = middle + 1
  right_end : s.rightI + right.length = high + 1

section Steps

variable {g x y : ℤ}

/-- There is room for every entry of the left half. -/
theorem Merging.exists_gap
    (h : Merging front done gap (x :: left) right back helper middle high s) :
    ∃ g rest, gap = g :: rest :=
  List.exists_cons_of_length_pos (h.gap_length.symm ▸ Nat.succ_pos left.length)

theorem Merging.store_cursor
    (h : Merging front done (g :: gap) left right back helper middle high s) (x : ℤ) :
    store s.arr s.cursor x = some (front ++ ((done ++ [x]) ++ (gap ++ (right ++ back)))) := by
  have hsplit : s.arr = (front ++ done) ++ g :: (gap ++ (right ++ back)) := by
    rw [h.arr]
    simp
  rw [hsplit, h.cursor, ← List.length_append, store_append]
  simp

theorem Merging.cursor_succ (h : Merging front done gap left right back helper middle high s)
    (x : ℤ) : s.cursor + 1 = front.length + (done ++ [x]).length := by
  rw [List.length_append, List.length_singleton, ← Nat.add_assoc, ← h.cursor]

/-- The gap shrinks with the left half. -/
theorem Merging.takeLeft
    (h : Merging front done (g :: gap) (x :: left) right back helper middle high s) :
    Merging front (done ++ [x]) gap left right back helper middle high
      ⟨front ++ ((done ++ [x]) ++ (gap ++ (right ++ back))), s.leftI + 1, s.rightI,
        s.cursor + 1⟩ where
  arr := rfl
  gap_length := Nat.succ.inj h.gap_length
  cursor := h.cursor_succ x
  left_prefix := (of_prefix_drop h.left_prefix).2
  right_prefix := h.right_prefix
  left_end := by
    have hend := h.left_end
    rw [List.length_cons] at hend
    change s.leftI + 1 + left.length = middle + 1
    omega
  right_end := h.right_end

/-- The gap moves on with the right half. -/
theorem Merging.takeRight
    (h : Merging front done (g :: gap) left (y :: right) back helper middle high s) :
    Merging front (done ++ [y]) (gap ++ [y]) left right back helper middle high
      ⟨front ++ ((done ++ [y]) ++ (gap ++ (y :: right ++ back))), s.leftI, s.rightI + 1,
        s.cursor + 1⟩ where
  arr := by simp
  gap_length := by
    rw [List.length_append, List.length_singleton]
    exact h.gap_length
  cursor := h.cursor_succ y
  left_prefix := h.left_prefix
  right_prefix := (of_prefix_drop h.right_prefix).2
  left_end := h.left_end
  right_end := by
    have hend := h.right_end
    rw [List.length_cons] at hend
    change s.rightI + 1 + right.length = high + 1
    omega

end Steps

theorem mergeBoth_spec (h : Merging front done gap left right back helper middle high s)
    (hfuel : left.length + right.length < fuel) :
    ∃ s' done' gap' left' right', mergeBoth helper middle high fuel s = some s' ∧
      Merging front done' gap' left' right' back helper middle high s' ∧
      (left' = [] ∨ right' = []) ∧ left'.length ≤ left.length ∧
      done' ++ List.merge right' left' (· ≤ ·) = done ++ List.merge right left (· ≤ ·) := by
  induction fuel generalizing done gap left right s with
  | zero => omega
  | succ fuel ih =>
    have hleft := h.left_end
    have hright := h.right_end
    rw [mergeBoth]
    cases left with
    | nil =>
      rw [List.length_nil] at hleft
      rw [if_neg (by omega)]
      exact ⟨s, done, gap, [], right, rfl, h, .inl rfl, Nat.le_refl _, rfl⟩
    | cons x left =>
      cases right with
      | nil =>
        rw [List.length_nil] at hright
        rw [if_neg (by omega)]
        exact ⟨s, done, gap, x :: left, [], rfl, h, .inr rfl, Nat.le_refl _, rfl⟩
      | cons y right =>
        obtain ⟨g, gap, rfl⟩ := h.exists_gap
        simp only [List.length_cons] at hleft hright hfuel
        rw [if_pos (by omega), (of_prefix_drop h.left_prefix).1, (of_prefix_drop h.right_prefix).1]
        simp only [Option.bind_eq_bind, Option.bind_some, h.store_cursor]
        by_cases hlt : x < y
        · obtain ⟨s', done', gap', left', right', hrun, h', hend, hle, hmerge⟩ :=
            ih h.takeLeft (by rw [List.length_cons]; omega)
          rw [if_pos hlt]
          refine ⟨s', done', gap', left', right', hrun, h', hend, Nat.le_succ_of_le hle, ?_⟩
          rw [hmerge, List.cons_merge_cons_neg _ _ _ (by simpa using hlt), List.append_assoc]
          rfl
        · obtain ⟨s', done', gap', left', right', hrun, h', hend, hle, hmerge⟩ :=
            ih h.takeRight (by rw [List.length_cons]; omega)
          rw [if_neg hlt]
          refine ⟨s', done', gap', left', right', hrun, h', hend, hle, ?_⟩
          rw [hmerge, List.cons_merge_cons_pos _ _ _ (by simpa using hlt), List.append_assoc]
          rfl

theorem mergeLeft_spec (h : Merging front done gap left [] back helper middle high s)
    (hfuel : left.length < fuel) :
    ∃ s', mergeLeft helper middle fuel s = some s' ∧
      s'.arr = front ++ ((done ++ left) ++ back) := by
  induction fuel generalizing done gap left s with
  | zero => omega
  | succ fuel ih =>
    have hleft := h.left_end
    rw [mergeLeft]
    cases left with
    | nil =>
      rw [List.length_nil] at hleft
      rw [if_neg (by omega)]
      refine ⟨s, rfl, ?_⟩
      rw [h.arr, List.eq_nil_of_length_eq_zero h.gap_length]
      simp
    | cons x left =>
      obtain ⟨g, gap, rfl⟩ := h.exists_gap
      rw [List.length_cons] at hleft hfuel
      obtain ⟨s', hrun, harr⟩ := ih h.takeLeft (by omega)
      rw [if_pos (by omega), (of_prefix_drop h.left_prefix).1]
      simp only [Option.bind_eq_bind, Option.bind_some, h.store_cursor]
      refine ⟨s', hrun, ?_⟩
      rw [harr]
      simp

/-- With nothing left of the left half there is no gap either. -/
theorem mergeLeft_done (h : Merging front done gap [] right back helper middle high s)
    (hfuel : 0 < fuel) :
    mergeLeft helper middle fuel s = some s ∧ s.arr = front ++ ((done ++ right) ++ back) := by
  have hleft := h.left_end
  rw [List.length_nil] at hleft
  obtain ⟨fuel, rfl⟩ := Nat.exists_eq_add_of_le' hfuel
  constructor
  · rw [mergeLeft, if_neg (by omega)]
  · rw [h.arr, List.eq_nil_of_length_eq_zero h.gap_length]
    simp

/-- The halves are merged, whichever of them is used up first. -/
theorem merge_spec (h : Merging front [] gap left right back helper middle high s)
    (hfuel : left.length + right.length < fuel) :
    ∃ s' s'', mergeBoth helper middle high fuel s = some s' ∧
      mergeLeft helper middle fuel s' = some s'' ∧
      s''.arr = front ++ (List.merge right left (· ≤ ·) ++ back) := by
  obtain ⟨s', done', gap', left', right', hrun, h', hend, hle, hmerge⟩ := mergeBoth_spec h hfuel
  rw [List.nil_append] at hmerge
  rw [← hmerge]
  rcases hend with rfl | rfl
  · obtain ⟨hrun', harr⟩ := mergeLeft_done h' (Nat.zero_lt_of_lt hfuel)
    refine ⟨s', s', hrun, hrun', ?_⟩
    rw [harr, List.merge_right]
  · obtain ⟨s'', hrun', harr⟩ := mergeLeft_spec h' (show left'.length < fuel by omega)
    refine ⟨s', s'', hrun, hrun', ?_⟩
    rw [harr, List.nil_merge]

theorem merge_sorted (hl : left.Pairwise (· ≤ ·)) (hr : right.Pairwise (· ≤ ·)) :
    (List.merge right left (· ≤ ·)).Pairwise (· ≤ ·) := by
  have htrans : ∀ a b c : ℤ, decide (a ≤ b) = true → decide (b ≤ c) = true →
      decide (a ≤ c) = true := by
    intro a b c hab hbc
    exact decide_eq_true (le_trans (of_decide_eq_true hab) (of_decide_eq_true hbc))
  have htotal : ∀ a b : ℤ, (decide (a ≤ b) || decide (b ≤ a)) = true := by
    intro a b
    rcases le_total a b with hab | hba
    · rw [decide_eq_true hab, Bool.true_or]
    · rw [decide_eq_true hba, Bool.or_true]
  have hmerge := List.pairwise_merge htrans htotal right left
    (hr.imp fun h => decide_eq_true h) (hl.imp fun h => decide_eq_true h)
  exact hmerge.imp fun h => of_decide_eq_true h

/-! ## `mergesort_aux` -/

theorem memcpy_spec {dst mid : List ℤ} (hlen : dst.length = (front ++ (mid ++ back)).length) :
    ∃ dst', memcpy dst (front ++ (mid ++ back)) front.length mid.length = some dst' ∧
      dst'.length = dst.length ∧ mid <+: dst'.drop front.length := by
  simp only [List.length_append] at hlen
  have htake : ((front ++ (mid ++ back)).drop front.length).take mid.length = mid := by
    rw [List.drop_left, List.take_left]
  have hfront : (dst.take front.length).length = front.length := by
    rw [List.length_take]
    omega
  refine ⟨dst.take front.length ++ (mid ++ dst.drop (front.length + mid.length)), ?_, ?_, ?_⟩
  · rw [memcpy, htake, if_pos]
    simp only [List.length_append]
    omega
  · simp only [List.length_append, List.length_take, List.length_drop]
    omega
  · rw [List.drop_left' hfront]
    exact List.prefix_append _ _

/-- The merge starts with a copy of both halves in `helper`. -/
theorem Merging.start (hcopy : left ++ right <+: helper.drop front.length)
    (hleft : front.length + left.length = middle + 1)
    (hright : middle + 1 + right.length = high + 1) :
    Merging front [] left left right back helper middle high
      ⟨front ++ (left ++ (right ++ back)), front.length, middle + 1, front.length⟩ where
  arr := rfl
  gap_length := rfl
  cursor := rfl
  left_prefix := (List.prefix_append left right).trans hcopy
  right_prefix := by
    obtain ⟨more, hmore⟩ := hcopy
    refine ⟨more, ?_⟩
    rw [← hleft, ← List.drop_drop, ← hmore, List.append_assoc, List.drop_left]
  left_end := hleft
  right_end := hright

/-- The halves of a range of two entries or more. -/
theorem exists_halves (front : List ℤ) {mid : List ℤ} (htwo : 1 < mid.length)
    (hmiddle : (front.length + (front.length + mid.length - 1)) / 2 = middle) :
    ∃ l r, mid = l ++ r ∧ l ≠ [] ∧ r ≠ [] ∧ front.length + l.length = middle + 1 := by
  have htake : (mid.take (middle + 1 - front.length)).length = middle + 1 - front.length := by
    rw [List.length_take]
    omega
  have hdrop : (mid.drop (middle + 1 - front.length)).length =
      mid.length - (middle + 1 - front.length) := List.length_drop
  exact ⟨_, _, (List.take_append_drop (middle + 1 - front.length) mid).symm,
    List.ne_nil_of_length_pos (by omega), List.ne_nil_of_length_pos (by omega), by omega⟩

theorem mergesortAux_spec {rounds fuel : ℕ} (front mid back helper : List ℤ) (hne : mid ≠ [])
    (hlen : helper.length = (front ++ (mid ++ back)).length) (hrounds : mid.length < rounds)
    (hfuel : mid.length ≤ fuel) :
    ∃ sorted helper', mergesortAux rounds fuel ⟨front ++ (mid ++ back), helper⟩ front.length
        (front.length + mid.length - 1) = some ⟨front ++ (sorted ++ back), helper'⟩ ∧
      helper'.length = helper.length ∧ sorted.Pairwise (· ≤ ·) ∧ sorted.Perm mid := by
  have hpos := List.length_pos_iff.mpr hne
  induction fuel generalizing front mid back helper with
  | zero => omega
  | succ fuel ih =>
    rw [mergesortAux]
    by_cases hone : mid.length = 1
    · obtain ⟨x, rfl⟩ := List.length_eq_one_iff.mp hone
      rw [if_pos (by omega)]
      exact ⟨[x], helper, rfl, rfl, List.pairwise_singleton _ x, .refl _⟩
    · rw [if_neg (by omega)]
      generalize hmiddle : (front.length + (front.length + mid.length - 1)) / 2 = middle
      obtain ⟨l, r, rfl, hl, hr, hend⟩ := exists_halves front (by omega) hmiddle
      have hposL := List.length_pos_iff.mpr hl
      have hposR := List.length_pos_iff.mpr hr
      simp only [List.length_append] at hone hpos hfuel hrounds hlen hmiddle ⊢
      -- the left half
      obtain ⟨left, helper₁, hleft, hlen₁, hsortedL, hpermL⟩ := ih front l (r ++ back) helper
        hl (by simp only [List.length_append]; omega) (by omega) (by omega) hposL
      have hlenL := hpermL.length_eq
      -- the right half
      obtain ⟨right, helper₂, hright, hlen₂, hsortedR, hpermR⟩ := ih (front ++ left) r back helper₁
        hr (by simp only [List.length_append]; omega) (by omega) (by omega) hposR
      have hlenR := hpermR.length_eq
      simp only [List.append_assoc] at hright
      obtain ⟨helper₃, hcopy, hlen₃, hprefix⟩ :=
        @memcpy_spec front back helper₂ (left ++ right) (by simp only [List.length_append]; omega)
      rw [List.append_assoc] at hcopy
      have hmerging : Merging front [] left left right back helper₃ middle
          (front.length + (l.length + r.length) - 1)
          ⟨front ++ (left ++ (right ++ back)), front.length, middle + 1, front.length⟩ :=
        .start hprefix (by omega) (by omega)
      obtain ⟨m, m', hboth, hrest, harr⟩ := @merge_spec _ _ _ _ _ _ _ _ rounds _ hmerging (by omega)
      refine ⟨List.merge right left (· ≤ ·), helper₃, ?_, by omega,
        merge_sorted hsortedL hsortedR, ?_⟩
      · have hendL : front.length + l.length - 1 = middle := by omega
        have hstartR : (front ++ left).length = middle + 1 := by
          rw [List.length_append]
          omega
        have hendR : middle + 1 + r.length - 1 = front.length + (l.length + r.length) - 1 := by
          omega
        have hcount : front.length + (l.length + r.length) - 1 - front.length + 1 =
            (left ++ right).length := by
          rw [List.length_append]
          omega
        rw [hendL] at hleft
        rw [hstartR, hendR] at hright
        simp only [List.append_assoc, hleft, hright, hcount, hcopy, hboth, hrest, harr,
          Option.bind_eq_bind, Option.bind_some]
        rfl
      · calc (List.merge right left (· ≤ ·)).Perm (right ++ left) := List.merge_perm_append _
          _ |>.Perm (left ++ right) := List.perm_append_comm
          _ |>.Perm (l ++ r) := hpermL.append hpermR

theorem mergesort_sorts (arr aux : List ℤ) (hne : arr ≠ []) (haux : aux.length = arr.length)
    (fuel : ℕ) (hfuel : arr.length < fuel) :
    ∃ sorted, mergesort fuel arr aux = some sorted ∧ sorted.Pairwise (· ≤ ·) ∧
      sorted.Perm arr := by
  have hlen : aux.length = ([] ++ (arr ++ [])).length := by
    rw [List.nil_append, List.append_nil, haux]
  obtain ⟨sorted, aux', hrun, -, hsorted, hperm⟩ :=
    mergesortAux_spec [] arr [] aux hne hlen hfuel (Nat.le_of_lt hfuel)
  rw [List.nil_append, List.append_nil, List.nil_append, List.append_nil, List.length_nil,
    Nat.zero_add] at hrun
  refine ⟨sorted, ?_, hsorted, hperm⟩
  rw [mergesort, if_pos (List.length_pos_iff.mpr hne), hrun]
  rfl

theorem mergesort_sorts_three : ∃ sorted, mergesort 4 [3, 1, 2] [0, 7, 0] = some sorted ∧
    sorted.Pairwise (· ≤ ·) ∧ sorted.Perm [3, 1, 2] :=
  mergesort_sorts [3, 1, 2] [0, 7, 0] (by decide) rfl 4 (by decide)

example : mergesort 6 [2, 7, 2, 9, 4] [0, 0, 0, 0, 0] = some [2, 2, 4, 7, 9] := by decide

end InterviewQuestions.Mergesort

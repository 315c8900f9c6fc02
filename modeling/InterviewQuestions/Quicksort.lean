import InterviewQuestions.Library.Rearrangement
import Mathlib.Data.Int.Order.Basic
import Mathlib.Data.List.Perm.Basic

/-! `sorting/quicksort/quicksort.c`. Beside its result a function keeps the indices of the entries
that it reads or writes. -/
namespace InterviewQuestions.Quicksort

open Library

/-- The array, `cursor`, and the indices so far. -/
structure Scan where
  arr : List ℤ
  cursor : ℕ
  touched : List ℕ

/-- The body of the `for` loop of `partition`. -/
def scanOne (low : ℕ) (s : Scan) (i : ℕ) : Option Scan := do
  let x ← s.arr[i]?
  let y ← s.arr[low]?
  if x ≤ y then
    return { arr := ← swap s.arr i s.cursor
             cursor := s.cursor + 1
             touched := s.touched ++ [i, low, i, s.cursor] }
  else return { s with touched := s.touched ++ [i, low] }

/-- There is no result where the assertion fails, and none where an index is out of range. -/
def partition (arr : List ℤ) (low high pivot : ℕ) : Option Scan :=
  if low ≤ pivot ∧ pivot < high then do
    let s : Scan := { arr := ← swap arr low pivot, cursor := low + 1, touched := [low, pivot] }
    let s ← (List.range' (low + 1) (high - (low + 1))).foldlM (scanOne low) s
    let cursor := s.cursor - 1
    return { arr := ← swap s.arr low cursor
             cursor := cursor
             touched := s.touched ++ [low, cursor] }
  else none

/-- A call of `quicksort_aux`, with what it touches and what the calls that it makes touch. -/
structure Call where
  low : ℕ
  high : ℕ
  touched : List ℕ

/-- The array after a call, the call itself, and the calls within. -/
structure Outcome where
  arr : List ℤ
  call : Call
  inner : List Call

def Outcome.calls (outcome : Outcome) : List Call := outcome.call :: outcome.inner

/-- There is no result where the calls nest deeper than the fuel. -/
def quicksortAux : ℕ → List ℤ → ℕ → ℕ → Option Outcome
  | 0, _, _, _ => none
  | fuel + 1, arr, low, high =>
      if high < low ∨ high - low ≤ 1 then
        some { arr := arr, call := ⟨low, high, []⟩, inner := [] }
      else do
        let parted ← partition arr low high ((low + high) / 2)
        let left ← quicksortAux fuel parted.arr low parted.cursor
        let right ← quicksortAux fuel left.arr (parted.cursor + 1) high
        let touched := parted.touched ++ left.call.touched ++ right.call.touched
        return { arr := right.arr
                 call := ⟨low, high, touched⟩
                 inner := left.calls ++ right.calls }

def quicksort (fuel : ℕ) (arr : List ℤ) : Option Outcome := quicksortAux fuel arr 0 arr.length

/-! Every call of `quicksort_aux` sorts its range and leaves the rest alone. -/

variable {front smaller larger todo back : List ℤ} {p : ℤ} {s : Scan}

/-! ## `partition` -/

/-- The range during the scan: the pivot, what is known to be at most the pivot, what is known to
be above it, and what is not yet looked at. -/
structure Scanned (front smaller larger todo back : List ℤ) (p : ℤ) (s : Scan) : Prop where
  arr : s.arr = front ++ p :: (smaller ++ (larger ++ (todo ++ back)))
  cursor : s.cursor = front.length + 1 + smaller.length
  smaller_le : ∀ x ∈ smaller, x ≤ p
  larger_gt : ∀ x ∈ larger, p < x
  touched : ∀ i ∈ s.touched, front.length ≤ i ∧
    i < front.length + 1 + (smaller.length + larger.length + todo.length)

/-- The entry at the cursor and a small one behind change places. -/
theorem swap_cursor (front smaller larger back : List ℤ) (p x : ℤ) :
    swap (front ++ p :: (smaller ++ (larger ++ x :: back)))
      (front.length + 1 + smaller.length + larger.length) (front.length + 1 + smaller.length) =
        some (front ++ p :: ((smaller ++ [x]) ++ (firstToEnd larger ++ back))) := by
  have hlen : (front ++ p :: smaller).length = front.length + 1 + smaller.length := by
    simp only [List.length_append, List.length_cons]
    omega
  have hswap := swap_past (front ++ p :: smaller) larger back x
  rw [hlen, swap_comm] at hswap
  simpa using hswap

section Step

variable {x : ℤ} (h : Scanned front smaller larger (x :: todo) back p s)

include h

theorem Scanned.getElem?_pivot : s.arr[front.length]? = some p := by
  rw [h.arr]
  exact getElem?_append_cons _ _ _

theorem Scanned.getElem?_next :
    s.arr[front.length + 1 + (smaller.length + larger.length)]? = some x := by
  have hsplit : s.arr = (front ++ p :: (smaller ++ larger)) ++ x :: (todo ++ back) := by
    rw [h.arr]
    simp
  have hlen : (front ++ p :: (smaller ++ larger)).length =
      front.length + 1 + (smaller.length + larger.length) := by
    simp only [List.length_append, List.length_cons]
    omega
  rw [hsplit, ← hlen]
  exact getElem?_append_cons _ _ _

/-- A small entry comes in front of the large ones, one of which may have made room for it. -/
theorem Scanned.small {larger' : List ℤ} (hle : x ≤ p) (hperm : larger'.Perm larger) :
    Scanned front (smaller ++ [x]) larger' todo back p
      ⟨front ++ p :: ((smaller ++ [x]) ++ (larger' ++ (todo ++ back))), s.cursor + 1,
        s.touched ++ [front.length + 1 + (smaller.length + larger.length), front.length,
          front.length + 1 + (smaller.length + larger.length), s.cursor]⟩ := by
  have hcursor := h.cursor
  constructor
  · rfl
  · change s.cursor + 1 = _
    rw [List.length_append, List.length_singleton]
    omega
  · refine List.forall_mem_append.mpr ⟨h.smaller_le, fun y hy => ?_⟩
    rwa [List.mem_singleton.mp hy]
  · exact fun y hy => h.larger_gt y (hperm.mem_iff.mp hy)
  · simp only [List.length_append, List.length_singleton, hperm.length_eq]
    refine List.forall_mem_append.mpr ⟨fun i hi => ?_, fun i hi => ?_⟩
    · have hrange := h.touched i hi
      rw [List.length_cons] at hrange
      omega
    · simp only [List.mem_cons, List.not_mem_nil, or_false] at hi
      omega

theorem Scanned.large (hgt : p < x) :
    Scanned front smaller (larger ++ [x]) todo back p
      { s with touched := s.touched ++ [front.length + 1 + (smaller.length + larger.length),
          front.length] } := by
  constructor
  · change s.arr = _
    rw [h.arr]
    simp
  · exact h.cursor
  · exact h.smaller_le
  · refine List.forall_mem_append.mpr ⟨h.larger_gt, fun y hy => ?_⟩
    rwa [List.mem_singleton.mp hy]
  · simp only [List.length_append, List.length_singleton]
    refine List.forall_mem_append.mpr ⟨fun i hi => ?_, fun i hi => ?_⟩
    · have hrange := h.touched i hi
      rw [List.length_cons] at hrange
      omega
    · simp only [List.mem_cons, List.not_mem_nil, or_false] at hi
      omega

theorem Scanned.step :
    ∃ s' smaller' larger',
      scanOne front.length s (front.length + 1 + (smaller.length + larger.length)) = some s' ∧
      Scanned front smaller' larger' todo back p s' ∧
      (smaller' ++ larger').Perm (x :: (smaller ++ larger)) := by
  unfold scanOne
  rw [h.getElem?_next, h.getElem?_pivot]
  simp only [Option.bind_eq_bind, Option.bind_some]
  by_cases hle : x ≤ p
  · have hperm := firstToEnd_perm larger
    have hthere : swap s.arr (front.length + 1 + (smaller.length + larger.length)) s.cursor =
        some (front ++ p :: ((smaller ++ [x]) ++ (firstToEnd larger ++ (todo ++ back)))) := by
      rw [h.cursor, h.arr, List.cons_append, ← Nat.add_assoc, swap_cursor]
    rw [if_pos hle, hthere]
    refine ⟨_, smaller ++ [x], firstToEnd larger, rfl, h.small hle hperm, ?_⟩
    rw [List.append_assoc]
    exact List.perm_middle.trans ((hperm.append_left smaller).cons x)
  · rw [if_neg hle]
    refine ⟨_, smaller, larger ++ [x], rfl, h.large (not_le.mp hle), ?_⟩
    rw [← List.append_assoc]
    exact List.perm_append_singleton x (smaller ++ larger)

end Step

theorem Scanned.run (h : Scanned front smaller larger todo back p s) :
    ∃ s' smaller' larger',
      (List.range' (front.length + 1 + (smaller.length + larger.length)) todo.length).foldlM
        (scanOne front.length) s = some s' ∧
      Scanned front smaller' larger' [] back p s' ∧
      (smaller' ++ larger').Perm (smaller ++ larger ++ todo) := by
  induction todo generalizing smaller larger s with
  | nil => exact ⟨s, smaller, larger, rfl, h, .of_eq (List.append_nil _).symm⟩
  | cons x todo ih =>
    obtain ⟨s', smaller', larger', hstep, h', hperm⟩ := h.step
    obtain ⟨s'', smaller'', larger'', hrun, h'', hperm'⟩ := ih h'
    have hlen := hperm.length_eq
    simp only [List.length_append, List.length_cons] at hlen
    rw [hlen, ← Nat.add_assoc] at hrun
    refine ⟨s'', smaller'', larger'', ?_, h'', ?_⟩
    · rw [List.length_cons, List.range'_succ, List.foldlM_cons, hstep]
      exact hrun
    · exact hperm'.trans ((hperm.append_right todo).trans List.perm_middle.symm)

/-- The range after `partition`, with the pivot at its place. -/
structure Partitioned (front mid back smaller larger : List ℤ) (p : ℤ) (s : Scan) : Prop where
  arr : s.arr = front ++ (smaller ++ p :: (larger ++ back))
  cursor : s.cursor = front.length + smaller.length
  smaller_le : ∀ x ∈ smaller, x ≤ p
  larger_gt : ∀ x ∈ larger, p < x
  perm : (smaller ++ p :: larger).Perm mid
  touched : ∀ i ∈ s.touched, front.length ≤ i ∧ i < front.length + mid.length

/-- The pivot goes to the front of the range. -/
theorem swap_to_front {mid : List ℤ} {k : ℕ} (front back : List ℤ) (hk : k < mid.length) :
    ∃ others, swap (front ++ (mid ++ back)) front.length (front.length + k) =
        some (front ++ mid[k] :: (others ++ back)) ∧ (mid[k] :: others).Perm mid := by
  obtain ⟨others, hthere, -, hperm⟩ := swap_front (List.getElem?_eq_getElem hk)
  refine ⟨others, ?_, hperm⟩
  have hswap := swap_append front (mid ++ back) 0 k
  rw [swap_append_right mid back (Nat.zero_lt_of_lt hk) hk, hthere] at hswap
  simpa using hswap

theorem Scanned.start (front others back : List ℤ) (p : ℤ) (k : ℕ) (hk : k ≤ others.length) :
    Scanned front [] [] others back p
      ⟨front ++ p :: (others ++ back), front.length + 1, [front.length, front.length + k]⟩ := by
  constructor
  · rfl
  · rfl
  · exact fun x hx => absurd hx List.not_mem_nil
  · exact fun x hx => absurd hx List.not_mem_nil
  · intro i hi
    simp only [List.mem_cons, List.not_mem_nil, or_false, List.length_nil] at hi ⊢
    omega

theorem partition_spec {mid : List ℤ} {pivot : ℕ} (hlow : front.length ≤ pivot)
    (hhigh : pivot < front.length + mid.length) :
    ∃ s smaller larger p,
      partition (front ++ (mid ++ back)) front.length (front.length + mid.length) pivot = some s ∧
      Partitioned front mid back smaller larger p s := by
  obtain ⟨k, rfl⟩ := Nat.exists_eq_add_of_le hlow
  have hk : k < mid.length := by omega
  obtain ⟨others, hmoved, hperm⟩ := swap_to_front front back hk
  have hlen := hperm.length_eq
  rw [List.length_cons] at hlen
  obtain ⟨s, smaller, larger, hrun, hscanned, hperm'⟩ :=
    (Scanned.start front others back mid[k] k (by omega)).run
  have hperm'' := lastToFront_perm smaller
  have hcount : front.length + mid.length - (front.length + 1) = others.length := by omega
  have hall : (smaller ++ larger).length = others.length := hperm'.length_eq
  rw [List.length_append] at hall
  refine ⟨⟨front ++ (lastToFront smaller ++ mid[k] :: (larger ++ back)),
    front.length + smaller.length, s.touched ++ [front.length, front.length + smaller.length]⟩,
    lastToFront smaller, larger, mid[k], ?_, ?_⟩
  · unfold partition
    rw [if_pos ⟨hlow, hhigh⟩, hmoved, hcount]
    simp only [Option.bind_eq_bind, Option.bind_some, Nat.add_zero, List.length_nil] at hrun ⊢
    rw [hrun, Option.bind_some, hscanned.cursor, hscanned.arr, List.nil_append]
    have hback : front.length + 1 + smaller.length - 1 = front.length + smaller.length := by omega
    rw [hback, swap_before]
    rfl
  · constructor
    · rfl
    · exact congrArg (front.length + ·) hperm''.length_eq.symm
    · exact fun x hx => hscanned.smaller_le x (hperm''.mem_iff.mp hx)
    · exact hscanned.larger_gt
    · calc (lastToFront smaller ++ mid[k] :: larger).Perm (smaller ++ mid[k] :: larger) :=
            hperm''.append_right _
        _ |>.Perm (mid[k] :: (smaller ++ larger)) := List.perm_middle
        _ |>.Perm (mid[k] :: others) := hperm'.cons _
        _ |>.Perm mid := hperm
    · intro i hi
      rcases List.mem_append.mp hi with hold | hnew
      · have hrange := hscanned.touched i hold
        rw [List.length_nil] at hrange
        omega
      · simp only [List.mem_cons, List.not_mem_nil, or_false] at hnew
        omega

/-! ## `quicksort_aux` -/

/-- The call touches its own range only. -/
def Call.Within (call : Call) : Prop := ∀ i ∈ call.touched, call.low ≤ i ∧ i < call.high

/-- The range of the call is sorted and the entries around it are where they were. -/
structure Sorts (front mid back : List ℤ) (outcome : Outcome) : Prop where
  arr : ∃ sorted, outcome.arr = front ++ (sorted ++ back) ∧ sorted.Pairwise (· ≤ ·) ∧
    sorted.Perm mid
  low : outcome.call.low = front.length
  high : outcome.call.high = front.length + mid.length
  within : ∀ call ∈ outcome.calls, call.Within

/-- What the two calls make of the two sides. -/
theorem sorted_sides {left right : List ℤ} (hle : ∀ x ∈ smaller, x ≤ p)
    (hgt : ∀ x ∈ larger, p < x) (hleft : left.Pairwise (· ≤ ·)) (hpermL : left.Perm smaller)
    (hright : right.Pairwise (· ≤ ·)) (hpermR : right.Perm larger) :
    (left ++ p :: right).Pairwise (· ≤ ·) := by
  have hbelow : ∀ x ∈ left, x ≤ p := fun x hx => hle x (hpermL.mem_iff.mp hx)
  have habove : ∀ y ∈ right, p ≤ y := fun y hy =>
    le_of_lt (hgt y (hpermR.mem_iff.mp hy))
  rw [List.pairwise_append]
  refine ⟨hleft, hright.cons habove, ?_⟩
  intro x hx y hy
  rcases List.mem_cons.mp hy with rfl | hy
  · exact hbelow x hx
  · exact le_trans (hbelow x hx) (habove y hy)

/-- What is touched within is touched by `partition` or within one of the two sides. -/
theorem Partitioned.within {left right : Call}
    (hs : Partitioned front mid back smaller larger p s) (hleft : left.Within)
    (hlowL : left.low = front.length) (hhighL : left.high = front.length + smaller.length)
    (hright : right.Within) (hlowR : right.low = s.cursor + 1)
    (hhighR : right.high = front.length + mid.length) :
    Call.Within ⟨front.length, front.length + mid.length,
      s.touched ++ left.touched ++ right.touched⟩ := by
  have hlen := hs.perm.length_eq
  rw [List.length_append, List.length_cons] at hlen
  have hcursor := hs.cursor
  refine List.forall_mem_append.mpr ⟨List.forall_mem_append.mpr ⟨hs.touched, ?_⟩, ?_⟩
  · intro i hi
    have hrange := hleft i hi
    change front.length ≤ i ∧ i < front.length + mid.length
    omega
  · intro i hi
    have hrange := hright i hi
    change front.length ≤ i ∧ i < front.length + mid.length
    omega

/-- Nothing is to be done for a range of one entry or none. -/
theorem sorts_short (front back : List ℤ) {mid : List ℤ} (hshort : mid.length ≤ 1) :
    Sorts front mid back ⟨front ++ (mid ++ back),
      ⟨front.length, front.length + mid.length, []⟩, []⟩ := by
  refine ⟨⟨mid, rfl, pairwise_of_short hshort, .refl _⟩, rfl, rfl, ?_⟩
  intro call hcall i hi
  rw [List.mem_singleton.mp hcall] at hi
  cases hi

theorem quicksortAux_spec (fuel : ℕ) (front mid back : List ℤ) (hfuel : mid.length < fuel) :
    ∃ outcome, quicksortAux fuel (front ++ (mid ++ back)) front.length
      (front.length + mid.length) = some outcome ∧ Sorts front mid back outcome := by
  induction fuel generalizing front mid back with
  | zero => omega
  | succ fuel ih =>
    rw [quicksortAux]
    by_cases hshort : mid.length ≤ 1
    · rw [if_pos (by omega)]
      exact ⟨_, rfl, sorts_short front back hshort⟩
    · rw [if_neg (by omega)]
      obtain ⟨s, smaller, larger, p, hpart, hs⟩ := @partition_spec front back mid
        ((front.length + (front.length + mid.length)) / 2) (by omega) (by omega)
      have hlen := hs.perm.length_eq
      rw [List.length_append, List.length_cons] at hlen
      obtain ⟨left, hleft, ⟨l, hl, hsortedL, hpermL⟩, hlowL, hhighL, hwithinL⟩ :=
        ih front smaller (p :: (larger ++ back)) (by omega)
      have harr : left.arr = (front ++ (l ++ [p])) ++ (larger ++ back) := by
        rw [hl]
        simp
      have hmiddle : (front ++ (l ++ [p])).length = s.cursor + 1 := by
        rw [hs.cursor, List.length_append, List.length_append, List.length_singleton,
          hpermL.length_eq, Nat.add_assoc]
      obtain ⟨right, hright, ⟨r, hr, hsortedR, hpermR⟩, hlowR, hhighR, hwithinR⟩ :=
        ih (front ++ (l ++ [p])) larger back (by omega)
      have hend : s.cursor + 1 + larger.length = front.length + mid.length := by
        rw [hs.cursor]
        omega
      rw [← harr, hmiddle, hend] at hright
      rw [hmiddle] at hlowR hhighR
      rw [← hs.arr, ← hs.cursor] at hleft
      simp only [hpart, hleft, hright, Option.bind_eq_bind, Option.bind_some]
      refine ⟨_, rfl, ⟨l ++ p :: r, ?_, ?_, ?_⟩, rfl, rfl, ?_⟩
      · change right.arr = _
        rw [hr]
        simp
      · exact sorted_sides hs.smaller_le hs.larger_gt hsortedL hpermL hsortedR hpermR
      · exact (hpermL.append (hpermR.cons p)).trans hs.perm
      · refine List.forall_mem_cons.mpr ⟨?_, List.forall_mem_append.mpr ⟨hwithinL, hwithinR⟩⟩
        exact hs.within (hwithinL left.call List.mem_cons_self) hlowL hhighL
          (hwithinR right.call List.mem_cons_self) hlowR (hhighR.trans hend)

theorem quicksort_sorts (arr : List ℤ) (fuel : ℕ) (hfuel : arr.length < fuel) :
    ∃ outcome, quicksort fuel arr = some outcome ∧ outcome.arr.Pairwise (· ≤ ·) ∧
      outcome.arr.Perm arr ∧ ∀ call ∈ outcome.calls, call.Within := by
  obtain ⟨outcome, hrun, ⟨sorted, harr, hsorted, hperm⟩, -, -, hwithin⟩ :=
    quicksortAux_spec fuel [] arr [] hfuel
  rw [List.nil_append, List.append_nil] at hrun harr
  rw [List.length_nil, Nat.zero_add] at hrun
  exact ⟨outcome, hrun, harr ▸ hsorted, harr ▸ hperm, hwithin⟩

theorem quicksort_sorts_three : ∃ outcome, quicksort 4 [3, 1, 2] = some outcome ∧
    outcome.arr.Pairwise (· ≤ ·) ∧ outcome.arr.Perm [3, 1, 2] ∧
      ∀ call ∈ outcome.calls, call.Within :=
  quicksort_sorts [3, 1, 2] 4 (by decide)

example : (quicksort 4 [3, 1, 2]).map Outcome.arr = some [1, 2, 3] := by decide

end InterviewQuestions.Quicksort

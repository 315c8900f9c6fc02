import InterviewQuestions.Library.Bisection
import InterviewQuestions.Library.Patience
import Mathlib.Algebra.GroupWithZero.Nat

/-! `LIS/optimized1.cpp`. There is no result where an index is out of range or a value of the type
`int` is too large. -/
namespace InterviewQuestions.Lis

open Library

/-- There is no `prev_pile_idx` in the first pile, where it is not set. -/
structure LISElement where
  value : ℤ
  prevPileIdx : Option ℕ

/-- The first element of a pile is the one at the bottom. -/
abbrev Piles := List (List LISElement)

/-- `piles[m][piles[m].size()-1]` -/
def top (piles : Piles) (m : ℕ) : Option LISElement := do
  let pile ← piles[m]?
  pile[pile.length - 1]?

def findPile (piles : Piles) (val : ℤ) : Option ℕ :=
  Bisection.upperBound piles.length fun m => (top piles m).map fun elem => elem.value ≤ val

/-- What the element that goes on a pile gets as its `prev_pile_idx`. -/
def prevPileIdx (piles : Piles) (pileIdx : ℕ) : Option (Option ℕ) :=
  if pileIdx > 0 then piles[pileIdx - 1]?.map fun pile => some (pile.length - 1) else some none

/-- The body of the loop of `patience_sort`. -/
def insertElement (piles : Piles) (value : ℤ) : Option Piles := do
  let pileIdx ← findPile piles value
  let piles := if pileIdx = piles.length then piles ++ [[]] else piles
  let prev ← prevPileIdx piles pileIdx
  let pile ← piles[pileIdx]?
  return piles.set pileIdx (pile ++ [⟨value, prev⟩])

def patienceSort (piles : Piles) (array : List ℤ) : Option Piles := array.foldlM insertElement piles

/-- The piles, with `curr` at the bottom of the last one, and `out`. -/
structure Walk where
  piles : Piles
  out : List ℤ

/-- `curr` is a reference, so that the assignment replaces the bottom of the last pile. -/
def follow (s : Walk) (i : ℕ) : Option Walk := do
  let last ← s.piles[s.piles.length - 1]?
  let curr ← last[0]?
  let pile ← s.piles[s.piles.length - 1 - i]?
  let next ← pile[← curr.prevPileIdx]?
  return { piles := s.piles.set (s.piles.length - 1) (last.set 0 next)
           out := s.out ++ [next.value] }

/-- The piles that are left from an earlier call are cleared. -/
def solve (_piles : Piles) (array out : List ℤ) : Option Walk := do
  let piles ← patienceSort [] array
  let last ← piles[piles.length - 1]?
  let curr ← last[0]?
  let s ← (List.range' 1 (piles.length - 1)).foldlM follow ⟨piles, out ++ [curr.value]⟩
  return { s with out := s.out.reverse }

/-! `solve` finds a longest non-decreasing subsequence, unless there are too many piles for the
binary search. -/

variable {piles piles' : Piles} {xs s : List ℤ} {elem : LISElement} {i : ℕ}

/-! ## The links between the piles -/

/-- What is read off from an element by its links, in the order of the array. -/
inductive Chain (piles : Piles) : ℕ → LISElement → List ℤ → Prop where
  | bottom (elem : LISElement) : Chain piles 0 elem [elem.value]
  | link {i p : ℕ} {elem prev : LISElement} {pile : List LISElement} {s : List ℤ}
      (hidx : elem.prevPileIdx = some p) (hpile : piles[i]? = some pile)
      (hprev : pile[p]? = some prev) (hchain : Chain piles i prev s) :
      Chain piles (i + 1) elem (s ++ [elem.value])

theorem Chain.length (h : Chain piles i elem s) : s.length = i + 1 := by
  induction h with
  | bottom elem => rfl
  | link hidx hpile hprev hchain ih => rw [List.length_append, ih, List.length_singleton]

theorem Chain.concat (h : Chain piles i elem s) : ∃ init, s = init ++ [elem.value] := by
  cases h with
  | bottom => exact ⟨[], rfl⟩
  | link hidx hpile hprev hchain => exact ⟨_, rfl⟩

/-- Every pile of `piles` is the lower part of one of `piles'`. -/
def Grows (piles piles' : Piles) : Prop :=
  ∀ (k : ℕ) (pile : List LISElement), piles[k]? = some pile →
    ∃ more, piles'[k]? = some (pile ++ more)

/-- Piles that only grow keep their links. -/
theorem Chain.mono (hgrow : Grows piles piles') (h : Chain piles i elem s) :
    Chain piles' i elem s := by
  induction h with
  | bottom elem => exact .bottom elem
  | link hidx hpile hprev hchain ih =>
    obtain ⟨more, hmore⟩ := hgrow _ _ hpile
    have hlt := (List.getElem?_eq_some_iff.mp hprev).1
    exact .link hidx hmore ((List.getElem?_append_left hlt).trans hprev) ih

/-- The elements read off are a subsequence, and do not decrease. -/
structure Reads (xs : List ℤ) (s : List ℤ) : Prop where
  sublist : s.Sublist xs
  sorted : s.Pairwise (· ≤ ·)

theorem Reads.concat {v : ℤ} (h : Reads xs s) (hle : ∀ x ∈ s, x ≤ v) :
    Reads (xs ++ [v]) (s ++ [v]) where
  sublist := h.sublist.append (.refl _)
  sorted := Patience.pairwise_concat h.sorted hle

theorem Reads.le_last {init : List ℤ} {v : ℤ} (h : Reads xs (init ++ [v])) :
    ∀ x ∈ init ++ [v], x ≤ v := by
  intro x hx
  rcases List.mem_append.mp hx with hx | hx
  · exact (List.pairwise_append.mp h.sorted).2.2 x hx v (List.mem_singleton_self v)
  · rw [List.mem_singleton.mp hx]

/-- The piles after the elements of `xs`. -/
structure Holds (xs : List ℤ) (piles : Piles) : Prop where
  length : piles.length = (Patience.tops xs).length
  top : ∀ k, (top piles k).map LISElement.value = (Patience.tops xs)[k]?
  chains : ∀ i pile elem, piles[i]? = some pile → elem ∈ pile →
    ∃ s, Chain piles i elem s ∧ Reads xs s

theorem holds_nil : Holds [] [] where
  length := rfl
  top _ := rfl
  chains i pile elem h := by cases h

theorem top_of_pile {pile : List LISElement} (h : piles[i]? = some pile) :
    top piles i = pile[pile.length - 1]? := by
  unfold top
  rw [h]
  rfl

theorem Holds.findPile_eq (h : Holds xs piles) (v : ℤ) (hsize : piles.length + 1 < 2 ^ 31) :
    findPile piles v = some (Patience.slot (Patience.tops xs) v) := by
  apply Bisection.upperBound_eq_some _ (h.length ▸ Patience.slot_le _ v) hsize
  intro m hm
  have ht := List.getElem?_eq_getElem (h.length ▸ hm)
  have htop := h.top m
  rw [ht] at htop
  obtain ⟨elem, helem, hvalue⟩ := Option.map_eq_some_iff.mp htop
  rw [helem, Option.map_some, hvalue]
  exact congrArg some (decide_eq_decide.mpr ((Patience.ascending_tops xs).le_iff ht))

/-- The link of a new element, and what is read off from it. -/
theorem Holds.exists_link (h : Holds xs piles) (v : ℤ) {slot : ℕ}
    (hslot : Patience.slot (Patience.tops xs) v = slot) (hle : slot ≤ piles.length) :
    ∃ prev s,
      prevPileIdx (if slot = piles.length then piles ++ [[]] else piles) slot = some prev ∧
      Reads (xs ++ [v]) s ∧
      ∀ piles', Grows piles piles' → Chain piles' slot ⟨v, prev⟩ s := by
  cases slot with
  | zero =>
    refine ⟨none, [v], rfl, ⟨List.sublist_append_right xs [v], List.pairwise_singleton _ v⟩, ?_⟩
    exact fun piles' _ => .bottom _
  | succ k =>
    have hk : k < piles.length := by omega
    have ht := List.getElem?_eq_getElem (h.length ▸ hk)
    have htop := h.top k
    rw [ht] at htop
    obtain ⟨prev, hprev, hvalue⟩ := Option.map_eq_some_iff.mp htop
    have hpile := List.getElem?_eq_getElem hk
    rw [top_of_pile hpile] at hprev
    obtain ⟨s, hchain, hreads⟩ := h.chains k _ prev hpile (List.mem_of_getElem? hprev)
    obtain ⟨init, hinit⟩ := hchain.concat
    have hlast : prev.value ≤ v := hvalue ▸ Patience.le_of_lt_slot (by omega) ht
    refine ⟨some (piles[k].length - 1), s ++ [v], ?_, hreads.concat ?_, fun piles' hgrow => ?_⟩
    · rw [prevPileIdx, if_pos (Nat.succ_pos k), Nat.add_sub_cancel,
        Patience.open_getElem?_of_lt piles hk, hpile]
      rfl
    · intro x hx
      rw [hinit] at hx hreads
      exact (hreads.le_last x hx).trans hlast
    · obtain ⟨more, hmore⟩ := hgrow k _ hpile
      have hlt := (List.getElem?_eq_some_iff.mp hprev).1
      exact .link rfl hmore ((List.getElem?_append_left hlt).trans hprev) (hchain.mono hgrow)

theorem mem_pile (h : elem ∈ piles[i]?.getD []) : ∃ pile, piles[i]? = some pile ∧ elem ∈ pile := by
  cases hpile : piles[i]? with
  | none =>
    rw [hpile] at h
    cases h
  | some pile =>
    rw [hpile] at h
    exact ⟨pile, rfl, h⟩

theorem grows_push (piles : Piles) (elem : LISElement) (hi : i ≤ piles.length) :
    Grows piles ((if i = piles.length then piles ++ [[]] else piles).set i
      (piles[i]?.getD [] ++ [elem])) := by
  intro k pile hpile
  rw [Patience.set_open_getElem? piles _ hi]
  by_cases hk : k = i
  · rw [if_pos hk, ← hk, hpile]
    exact ⟨[elem], rfl⟩
  · rw [if_neg hk, hpile]
    exact ⟨[], congrArg some (List.append_nil pile).symm⟩

theorem Holds.chain_mono (h : Holds xs piles) (hgrow : Grows piles piles') (v : ℤ)
    {pile : List LISElement} (hpile : piles[i]? = some pile) (helem : elem ∈ pile) :
    ∃ s, Chain piles' i elem s ∧ Reads (xs ++ [v]) s := by
  obtain ⟨s, hchain, hreads⟩ := h.chains i pile elem hpile helem
  exact ⟨s, hchain.mono hgrow, hreads.sublist.trans (List.sublist_append_left _ _), hreads.sorted⟩

theorem insertElement_spec (h : Holds xs piles) (v : ℤ) (hsize : piles.length + 1 < 2 ^ 31) :
    ∃ piles', insertElement piles v = some piles' ∧ Holds (xs ++ [v]) piles' := by
  have hle : Patience.slot (Patience.tops xs) v ≤ piles.length :=
    h.length ▸ Patience.slot_le _ v
  obtain ⟨prev, s, hprev, hreads, hchain⟩ := h.exists_link v rfl hle
  have hgrow := grows_push piles ⟨v, prev⟩ hle
  have hinsert : insertElement piles v =
      some ((if Patience.slot (Patience.tops xs) v = piles.length then piles ++ [[]] else piles).set
        (Patience.slot (Patience.tops xs) v)
        (piles[Patience.slot (Patience.tops xs) v]?.getD [] ++ [⟨v, prev⟩])) := by
    unfold insertElement
    simp only [h.findPile_eq v hsize, Option.bind_eq_bind, Option.bind_some, hprev,
      Patience.open_getElem? piles hle]
    rfl
  refine ⟨_, hinsert, ?_, ?_, ?_⟩
  · exact Patience.length_push h.length v _
  · intro k
    apply Patience.top_push
      (f := fun pile => (pile.bind fun pile => pile[pile.length - 1]?).map LISElement.value)
      h.length h.top
    rw [Option.bind_some, List.length_append, List.length_singleton, Nat.add_sub_cancel,
      List.getElem?_concat_length]
    rfl
  · intro k pile elem hpile helem
    rw [Patience.set_open_getElem? piles _ hle] at hpile
    split at hpile
    · next hk =>
      rw [← Option.some.inj hpile] at helem
      rcases List.mem_append.mp helem with hmem | hmem
      · obtain ⟨old, hold, hmem⟩ := mem_pile hmem
        exact h.chain_mono hgrow v (hk ▸ hold) hmem
      · rw [List.mem_singleton.mp hmem, hk]
        exact ⟨s, hchain _ hgrow, hreads⟩
    · exact h.chain_mono hgrow v hpile helem

/-- One pile more than the search can do with. -/
theorem insertElement_eq_none (v : ℤ) (hsize : piles.length + 1 = 2 ^ 31) :
    insertElement piles v = none := by
  unfold insertElement findPile
  rw [Bisection.upperBound_eq_none _ hsize]
  rfl

theorem patienceSort_spec (array : List ℤ) :
    ((Patience.tops array.dropLast).length < 2 ^ 31 - 1 →
      ∃ piles, patienceSort [] array = some piles ∧ Holds array piles) ∧
    (2 ^ 31 - 1 ≤ (Patience.tops array.dropLast).length → patienceSort [] array = none) := by
  apply Patience.foldlM_tops Holds (by decide) holds_nil
  · intro xs piles v hholds hlt
    exact insertElement_spec hholds v (by rw [hholds.length]; omega)
  · intro xs piles v hholds hlimit
    exact insertElement_eq_none v (by rw [hholds.length]; omega)

/-! ## The walk along the links -/

/-- `curr` is at the bottom of the last pile; the piles before it are as `patience_sort` left
them. -/
structure Walking (piles : Piles) (curr : LISElement) (now : Piles) : Prop where
  length : now.length = piles.length
  curr : ∃ last, now[piles.length - 1]? = some last ∧ last[0]? = some curr
  before : ∀ k < piles.length - 1, now[k]? = piles[k]?

theorem Walking.set {curr : LISElement} {now : Piles} {last : List LISElement}
    (h : Walking piles curr now) (hlast : now[piles.length - 1]? = some last)
    (hcurr : last[0]? = some curr) (next : LISElement) :
    Walking piles next (now.set (piles.length - 1) (last.set 0 next)) where
  length := by rw [List.length_set, h.length]
  curr := by
    refine ⟨last.set 0 next, ?_, ?_⟩
    · exact List.getElem?_set_self (List.getElem?_eq_some_iff.mp hlast).1
    · exact List.getElem?_set_self (List.getElem?_eq_some_iff.mp hcurr).1
  before k hk := by rw [List.getElem?_set_ne (by omega), h.before k hk]

theorem follow_run {curr : LISElement} {now : Piles} {out : List ℤ} {start : ℕ}
    (h : Walking piles curr now) (hchain : Chain piles i curr s) (hstart : start + i = piles.length)
    (hpos : 0 < start) :
    ∃ now', (List.range' start i).foldlM follow ⟨now, out ++ [curr.value]⟩ =
      some ⟨now', out ++ s.reverse⟩ := by
  induction hchain generalizing now out start with
  | bottom curr => exact ⟨now, rfl⟩
  | @link i p curr prev pile s hidx hpile hprev hchain ih =>
    obtain ⟨last, hlast, hcurr⟩ := h.curr
    have hindex : piles.length - 1 - start = i := by omega
    have hstep : follow ⟨now, out ++ [curr.value]⟩ start =
        some ⟨now.set (piles.length - 1) (last.set 0 prev),
          out ++ [curr.value] ++ [prev.value]⟩ := by
      unfold follow
      simp only [h.length, hlast, hcurr, hindex, h.before i (by omega), hpile, hidx, hprev,
        Option.bind_eq_bind, Option.bind_some]
      rfl
    obtain ⟨now', hrun⟩ := @ih _ (out ++ [curr.value]) (start + 1) (h.set hlast hcurr prev)
      (by omega) (by omega)
    refine ⟨now', ?_⟩
    rw [List.range'_succ, List.foldlM_cons, hstep, Option.bind_eq_bind, Option.bind_some, hrun]
    simp

/-! ## `solve` -/

/-- A longest non-decreasing subsequence is put before what was in `out`, the other way round. -/
def Solves (left : Piles) (array out : List ℤ) : Prop :=
  ∃ s lis, solve left array out = some s ∧ s.out = lis ++ out.reverse ∧ lis.Sublist array ∧
    lis.Pairwise (· ≤ ·) ∧
    ∀ other : List ℤ, other.Sublist array → other.Pairwise (· ≤ ·) → other.length ≤ lis.length

/-- No pile is empty. -/
theorem Holds.exists_bottom (h : Holds xs piles) (hi : i < piles.length) :
    ∃ pile elem, piles[i]? = some pile ∧ pile[0]? = some elem := by
  have hpile := List.getElem?_eq_getElem hi
  have htop := h.top i
  rw [List.getElem?_eq_getElem (h.length ▸ hi), top_of_pile hpile] at htop
  obtain ⟨elem, helem, -⟩ := Option.map_eq_some_iff.mp htop
  have hlt := (List.getElem?_eq_some_iff.mp helem).1
  exact ⟨_, _, hpile, List.getElem?_eq_getElem (Nat.zero_lt_of_lt hlt)⟩

theorem Holds.solve_spec {array : List ℤ} (h : Holds array piles)
    (hsort : patienceSort [] array = some piles) (hne : array ≠ []) (left : Piles) (out : List ℤ) :
    Solves left array out := by
  have hbound := (Patience.length_tops_isGreatest array).2
  have hpos : 0 < piles.length := by
    obtain ⟨x, rest, rfl⟩ := List.exists_cons_of_ne_nil hne
    have hone := hbound ⟨[x], by simp, List.pairwise_singleton _ x, rfl⟩
    rw [h.length]
    exact hone
  obtain ⟨last, curr, hlast, hcurr⟩ :=
    h.exists_bottom (show piles.length - 1 < piles.length by omega)
  obtain ⟨lis, hchain, hreads⟩ := h.chains _ last curr hlast (List.mem_of_getElem? hcurr)
  obtain ⟨now, hrun⟩ := @follow_run piles lis (piles.length - 1) curr piles out 1
    ⟨rfl, ⟨last, hlast, hcurr⟩, fun _ _ => rfl⟩ hchain (by omega) Nat.one_pos
  refine ⟨⟨now, (out ++ lis.reverse).reverse⟩, lis, ?_, ?_, hreads.sublist, hreads.sorted, ?_⟩
  · unfold solve
    simp only [hsort, hlast, hcurr, hrun, Option.bind_eq_bind, Option.bind_some]
    rfl
  · rw [List.reverse_append, List.reverse_reverse]
  · intro other hsub' hsorted'
    have hle := hbound ⟨other, hsub', hsorted', rfl⟩
    have hlength := hchain.length
    rw [h.length] at hlength
    rw [h.length] at hpos
    omega

theorem solve_eq_none {array : List ℤ} (h : patienceSort [] array = none) (left : Piles)
    (out : List ℤ) : solve left array out = none := by
  unfold solve
  rw [h]
  rfl

/-- `r-l` is an `int` as long as no non-decreasing subsequence before the last element has
2147483647 elements. -/
theorem solve_iff (left : Piles) (array out : List ℤ) (hne : array ≠ []) :
    Solves left array out ↔
      ∀ s : List ℤ, s.Sublist array.dropLast → s.Pairwise (· ≤ ·) → s.length < 2147483647 := by
  have hlimit : (2147483647 : ℕ) = 2 ^ 31 - 1 := rfl
  rw [hlimit, ← Patience.length_tops_lt_iff]
  constructor
  · rintro ⟨s, lis, hsolve, -⟩
    by_contra hnot
    rw [solve_eq_none ((patienceSort_spec array).2 (not_lt.mp hnot))] at hsolve
    cases hsolve
  · intro hlt
    obtain ⟨piles, hsort, hholds⟩ := (patienceSort_spec array).1 hlt
    exact hholds.solve_spec hsort hne left out

theorem solve_iff_three : Solves [] [3, 1, 2] [] ↔
    ∀ s : List ℤ, s.Sublist [3, 1] → s.Pairwise (· ≤ ·) → s.length < 2147483647 :=
  solve_iff [] [3, 1, 2] [] (by decide)

theorem not_solves_replicate : ¬ Solves [] (List.replicate (2 ^ 31) 0) [] := by
  have hdrop : (List.replicate (2 ^ 31) (0 : ℤ)).dropLast = List.replicate (2 ^ 31 - 1) 0 :=
    List.dropLast_replicate
  have hnone : patienceSort [] (List.replicate (2 ^ 31) 0) = none := by
    apply (patienceSort_spec _).2
    rw [hdrop]
    exact (Patience.length_tops_isGreatest _).2
      ⟨_, .refl _, List.pairwise_replicate.mpr (.inr (le_refl 0)), List.length_replicate⟩
  rintro ⟨s, lis, hsolve, -⟩
  rw [solve_eq_none hnone] at hsolve
  cases hsolve

example : (solve [] [3, 1, 2, 1, 2] []).map Walk.out = some [1, 1, 2] := by decide

end InterviewQuestions.Lis

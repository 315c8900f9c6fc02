import Mathlib.Data.List.Lex
import Mathlib.Logic.Equiv.Basic
import Mathlib.Order.Bounds.Basic
import Mathlib.Tactic.Common

/-! Two entries of an array change places. -/
namespace InterviewQuestions.Library

variable {α : Type*}

theorem getElem?_append_cons (front : List α) (x : α) (back : List α) :
    (front ++ x :: back)[front.length]? = some x := by
  rw [List.getElem?_append_right (Nat.le_refl _), Nat.sub_self]
  rfl

theorem set_append_cons (front : List α) (x y : α) (back : List α) :
    (front ++ x :: back).set front.length y = front ++ y :: back := by
  rw [List.set_append_right _ _ (Nat.le_refl _), Nat.sub_self]
  rfl

theorem exists_append_cons {arr : List α} {j : ℕ} {z : α} (h : arr[j]? = some z) :
    ∃ front back, arr = front ++ z :: back ∧ front.length = j := by
  obtain ⟨hj, rfl⟩ := List.getElem?_eq_some_iff.mp h
  exact ⟨arr.take j, arr.drop (j + 1), by simp, by rw [List.length_take]; omega⟩

theorem pairwise_of_short {r : α → α → Prop} {arr : List α} (h : arr.length ≤ 1) :
    arr.Pairwise r := by
  cases arr with
  | nil => exact .nil
  | cons x rest =>
    rw [List.eq_nil_of_length_eq_zero (Nat.le_zero.mp (Nat.le_of_succ_le_succ h))]
    exact List.pairwise_singleton r x

/-- There is no result where an index is out of range. -/
def swap (arr : List α) (i j : ℕ) : Option (List α) := do
  let tmp ← arr[i]?
  let y ← arr[j]?
  return (arr.set i y).set j tmp

theorem swap_apart (front middle back : List α) (x y : α) :
    swap (front ++ x :: (middle ++ y :: back)) front.length (front.length + 1 + middle.length) =
      some (front ++ y :: (middle ++ x :: back)) := by
  have hsplit (z : α) :
      front ++ z :: (middle ++ y :: back) = (front ++ z :: middle) ++ y :: back := by
    simp
  have hlen (z : α) : (front ++ z :: middle).length = front.length + 1 + middle.length := by
    simp only [List.length_append, List.length_cons]
    omega
  have hy : (front ++ x :: (middle ++ y :: back))[front.length + 1 + middle.length]? = some y := by
    rw [hsplit, ← hlen x]
    exact getElem?_append_cons _ _ _
  have hset : (front ++ y :: (middle ++ y :: back)).set (front.length + 1 + middle.length) x =
      front ++ y :: (middle ++ x :: back) := by
    rw [hsplit, ← hlen y, set_append_cons]
    simp
  unfold swap
  rw [getElem?_append_cons, hy]
  simp only [Option.bind_eq_bind, Option.bind_some]
  rw [set_append_cons, hset]
  rfl

theorem swap_self (arr : List α) {i : ℕ} (hi : i < arr.length) : swap arr i i = some arr := by
  unfold swap
  rw [List.getElem?_eq_getElem hi]
  simp

theorem swap_comm (arr : List α) (i j : ℕ) : swap arr i j = swap arr j i := by
  unfold swap
  by_cases hij : i = j
  · rw [hij]
  · cases hx : arr[i]? with
    | none => cases arr[j]? <;> rfl
    | some x =>
      cases hy : arr[j]? with
      | none => rfl
      | some y =>
        simp only [Option.bind_eq_bind, Option.bind_some]
        rw [List.set_comm _ _ hij]

theorem swap_append (front arr : List α) (i j : ℕ) :
    swap (front ++ arr) (front.length + i) (front.length + j) =
      (swap arr i j).map (front ++ ·) := by
  have hget (i : ℕ) : (front ++ arr)[front.length + i]? = arr[i]? := by
    rw [List.getElem?_append_right (Nat.le_add_right _ _), Nat.add_sub_cancel_left]
  have hset (arr : List α) (i : ℕ) (x : α) :
      (front ++ arr).set (front.length + i) x = front ++ arr.set i x := by
    rw [List.set_append_right _ _ (Nat.le_add_right _ _), Nat.add_sub_cancel_left]
  unfold swap
  rw [hget, hget]
  cases arr[i]? with
  | none => rfl
  | some x =>
    cases arr[j]? with
    | none => rfl
    | some y =>
      simp only [Option.bind_eq_bind, Option.bind_some, hset]
      rfl

theorem swap_append_right (arr back : List α) {i j : ℕ} (hi : i < arr.length)
    (hj : j < arr.length) : swap (arr ++ back) i j = (swap arr i j).map (· ++ back) := by
  unfold swap
  rw [List.getElem?_append_left hi, List.getElem?_append_left hj, List.getElem?_eq_getElem hi,
    List.getElem?_eq_getElem hj]
  simp only [Option.bind_eq_bind, Option.bind_some]
  rw [List.set_append_left _ _ hi, List.set_append_left _ _ (by rwa [List.length_set])]
  rfl

/-- The first entry goes to the end. -/
def firstToEnd (arr : List α) : List α := arr.tail ++ arr.head?.toList

/-- The last entry goes to the front. -/
def lastToFront (arr : List α) : List α := arr.getLast?.toList ++ arr.dropLast

theorem firstToEnd_perm (arr : List α) : (firstToEnd arr).Perm arr := by
  cases arr with
  | nil => exact .refl _
  | cons x rest => exact List.perm_append_singleton x rest

theorem lastToFront_concat (arr : List α) (x : α) : lastToFront (arr ++ [x]) = x :: arr := by
  rw [lastToFront, List.getLast?_concat, List.dropLast_concat]
  rfl

theorem lastToFront_perm (arr : List α) : (lastToFront arr).Perm arr := by
  rcases List.eq_nil_or_concat arr with rfl | ⟨init, last, rfl⟩
  · exact .refl _
  · rw [List.concat_eq_append, lastToFront_concat]
    exact (List.perm_append_singleton last init).symm

/-- An entry changes places with the first of those right before it. -/
theorem swap_past (front passed back : List α) (x : α) :
    swap (front ++ (passed ++ x :: back)) front.length (front.length + passed.length) =
      some (front ++ x :: (firstToEnd passed ++ back)) := by
  cases passed with
  | nil => exact swap_self _ (by simp)
  | cons g passed =>
    have hswap := swap_apart front passed back g x
    rw [List.length_cons, Nat.add_comm passed.length, ← Nat.add_assoc, List.cons_append, hswap]
    simp [firstToEnd]

/-- An entry changes places with the last of those right after it. -/
theorem swap_before (front passed back : List α) (x : α) :
    swap (front ++ x :: (passed ++ back)) front.length (front.length + passed.length) =
      some (front ++ (lastToFront passed ++ x :: back)) := by
  rcases List.eq_nil_or_concat passed with rfl | ⟨init, last, rfl⟩
  · exact swap_self _ (by simp)
  · have hswap := swap_apart front init back x last
    rw [List.concat_eq_append, lastToFront_concat, List.append_assoc, List.length_append,
      List.length_singleton, Nat.add_comm init.length, ← Nat.add_assoc, List.singleton_append,
      hswap]
    simp

theorem exists_swap {arr : List α} {i j : ℕ} (hi : i < arr.length) (hj : j < arr.length) :
    ∃ arr', swap arr i j = some arr' ∧ arr'.Perm arr ∧
      ∀ k, arr'[k]? = arr[Equiv.swap i j k]? := by
  refine ⟨(arr.set i arr[j]).set j arr[i], ?_, List.set_set_perm hi hj, ?_⟩
  · unfold swap
    rw [List.getElem?_eq_getElem hi, List.getElem?_eq_getElem hj]
    rfl
  · intro k
    by_cases hkj : k = j
    · rw [hkj, Equiv.swap_apply_right, List.getElem?_set_self (by simpa using hj),
        List.getElem?_eq_getElem hi]
    · rw [List.getElem?_set_ne (Ne.symm hkj)]
      by_cases hki : k = i
      · rw [hki, Equiv.swap_apply_left, List.getElem?_set_self hi, List.getElem?_eq_getElem hj]
      · rw [List.getElem?_set_ne (Ne.symm hki), Equiv.swap_apply_of_ne_of_ne hki hkj]

/-- An entry is brought to the front, and back. -/
theorem swap_front {arr : List α} {j : ℕ} {z : α} (hz : arr[j]? = some z) :
    ∃ others, swap arr 0 j = some (z :: others) ∧ swap (z :: others) 0 j = some arr ∧
      (z :: others).Perm arr := by
  cases j with
  | zero =>
    obtain ⟨hj, rfl⟩ := List.getElem?_eq_some_iff.mp hz
    obtain ⟨x, rest, rfl⟩ := List.exists_cons_of_length_pos hj
    exact ⟨rest, swap_self _ hj, swap_self _ hj, .refl _⟩
  | succ j =>
    cases arr with
    | nil => cases hz
    | cons x rest =>
      obtain ⟨middle, back, rfl, rfl⟩ := exists_append_cons (List.getElem?_cons_succ ▸ hz)
      have hthere (x y : α) := swap_apart [] middle back x y
      simp only [List.nil_append, List.length_nil, Nat.zero_add, Nat.add_comm 1] at hthere
      refine ⟨middle ++ x :: back, hthere x z, hthere z x, ?_⟩
      exact (List.perm_middle.cons z).trans ((List.Perm.swap x z _).trans
        (List.perm_middle.symm.cons x))

/-- The same behind other entries. -/
theorem swap_append_front (front : List α) {arr : List α} {j : ℕ} {z : α} (hz : arr[j]? = some z) :
    ∃ others, swap (front ++ arr) front.length (front.length + j) = some (front ++ z :: others) ∧
      swap (front ++ z :: others) front.length (front.length + j) = some (front ++ arr) ∧
      (z :: others).Perm arr := by
  obtain ⟨others, hthere, hback, hperm⟩ := swap_front hz
  have hswap (arr : List α) : swap (front ++ arr) front.length (front.length + j) =
      (swap arr 0 j).map (front ++ ·) := swap_append front arr 0 j
  refine ⟨others, ?_, ?_, hperm⟩
  · rw [hswap, hthere]
    rfl
  · rw [hswap, hback]
    rfl

end InterviewQuestions.Library

/-! The rearrangements of a list in lexicographic order, for any strict total order of its
elements. -/
namespace InterviewQuestions.Library

section Turned

variable {α : Type*} {r : α → α → Prop} {l m q : List α}

/-- Equally long lists are compared at the first place where they differ. -/
theorem lex_swap (hlen : l.length = m.length) :
    List.Lex (fun a b => r b a) l m ↔ List.Lex r m l := by
  induction l generalizing m with
  | nil =>
    have hm : m = [] := List.length_eq_zero_iff.mp hlen.symm
    subst hm
    constructor <;> intro h <;> cases h
  | cons a l ih =>
    cases m with
    | nil => cases hlen
    | cons b m =>
      have hrest := ih (Nat.succ.inj hlen)
      constructor
      · intro h
        cases h with
        | cons h => exact .cons (hrest.mp h)
        | rel h => exact .rel h
      · intro h
        cases h with
        | cons h => exact .cons (hrest.mpr h)
        | rel h => exact .rel h

/-- The elements after `x` are in descending order, and `y` is the last larger one. -/
structure Pivots (r : α → α → Prop) (x y : α) (left right : List α) : Prop where
  rises : r x y
  descending : (left ++ y :: right).Pairwise fun a b => ¬ r a b
  rest : ∀ z ∈ right, ¬ r x z

/-- `y` goes in the place of the pivot `x`, and what follows is turned round. -/
inductive Turned (r : α → α → Prop) : List α → List α → Prop
  | pivot (front : List α) {x y : α} {left right : List α} (h : Pivots r x y left right) :
      Turned r (front ++ x :: (left ++ y :: right)) (front ++ y :: (left ++ x :: right).reverse)

theorem exchange_perm (x y : α) (left right : List α) :
    (y :: (left ++ x :: right)).Perm (x :: (left ++ y :: right)) :=
  calc y :: (left ++ x :: right)
    List.Perm _ (y :: x :: (left ++ right)) := List.perm_middle.cons y
    List.Perm _ (x :: y :: (left ++ right)) := .swap x y _
    List.Perm _ (x :: (left ++ y :: right)) := List.perm_middle.symm.cons x

theorem Turned.perm (h : Turned r l m) : m.Perm l := by
  cases h with
  | pivot front h =>
    apply List.Perm.append_left
    exact ((List.reverse_perm _).cons _).trans (exchange_perm _ _ _ _)

theorem Turned.lex (h : Turned r l m) : List.Lex r l m := by
  cases h with
  | pivot front h => exact List.Lex.append_left r (.rel h.rises) front

/-- In a list with a larger element there is a last one. -/
theorem exists_last_larger [DecidableRel r] (x : α) (l : List α) (h : ∃ y ∈ l, r x y) :
    ∃ left y right, l = left ++ y :: right ∧ r x y ∧ ∀ z ∈ right, ¬ r x z := by
  induction l with
  | nil => exact absurd h (by rintro ⟨y, hy, -⟩; cases hy)
  | cons a l ih =>
    by_cases hl : ∃ y ∈ l, r x y
    · obtain ⟨left, y, right, heq, hxy, hright⟩ := ih hl
      exact ⟨a :: left, y, right, congrArg _ heq, hxy, hright⟩
    · obtain ⟨y, hy, hxy⟩ := h
      cases hy with
      | head => exact ⟨[], a, l, rfl, hxy, fun z hz hxz => hl ⟨z, hz, hxz⟩⟩
      | tail _ hy => exact absurd ⟨y, hy, hxy⟩ hl

/-- A list without a pivot is in descending order. -/
theorem descending_or_pivot [DecidableRel r] (l : List α) :
    (l.Pairwise fun a b => ¬ r a b) ∨ ∃ front x left y right,
      l = front ++ x :: (left ++ y :: right) ∧ Pivots r x y left right := by
  induction l with
  | nil => exact .inl .nil
  | cons a l ih =>
    rcases ih with hdesc | ⟨front, x, left, y, right, heq, hpivot⟩
    · by_cases hlarger : ∃ y ∈ l, r a y
      · obtain ⟨left, y, right, heq, hay, hright⟩ := exists_last_larger a l hlarger
        subst heq
        exact .inr ⟨[], a, left, y, right, rfl, hay, hdesc, hright⟩
      · exact .inl (.cons (fun y hy hay => hlarger ⟨y, hy, hay⟩) hdesc)
    · exact .inr ⟨a :: front, x, left, y, right, congrArg _ heq, hpivot⟩

variable [IsStrictTotalOrder α r]

/-- In ascending order a list comes before its rearrangements. -/
theorem eq_or_lex_of_ascending (hl : l.Pairwise fun a b => ¬ r b a) (hq : q.Perm l) :
    q = l ∨ List.Lex r l q := by
  induction l generalizing q with
  | nil => exact .inl hq.eq_nil
  | cons a l ih =>
    rw [List.pairwise_cons] at hl
    cases q with
    | nil => exact absurd hq.symm.eq_nil (List.cons_ne_nil a l)
    | cons b q =>
      have hba : b = a ∨ r a b := by
        cases List.mem_cons.mp (hq.subset (List.mem_cons_self)) with
        | inl heq => exact .inl heq
        | inr hmem =>
          rcases trichotomous_of r a b with h | h | h
          · exact .inr h
          · exact .inl h.symm
          · exact absurd h (hl.1 b hmem)
      cases hba with
      | inl heq =>
        subst heq
        exact (ih hl.2 hq.cons_inv).imp (congrArg _) .cons
      | inr hlt => exact .inr (.rel hlt)

/-- In descending order a list comes after its rearrangements. -/
theorem not_lex_of_descending (hl : l.Pairwise fun a b => ¬ r a b) (hq : q.Perm l) :
    ¬ List.Lex r l q := by
  intro hlex
  rcases eq_or_lex_of_ascending (r := fun a b => r b a) hl hq with h | h
  · subst h
    exact irrefl _ hlex
  · exact asymm hlex ((lex_swap hq.length_eq.symm).mp h)

/-- The elements that follow the pivot stay in descending order when `y` is exchanged for it. -/
theorem Pivots.descending_exchange {x y : α} {left right : List α} (h : Pivots r x y left right) :
    (left ++ x :: right).Pairwise fun a b => ¬ r a b := by
  have hdesc := h.descending
  rw [List.pairwise_append, List.pairwise_cons] at hdesc ⊢
  obtain ⟨hleft, ⟨-, htail⟩, hacross⟩ := hdesc
  refine ⟨hleft, ⟨h.rest, htail⟩, ?_⟩
  intro a ha b hb
  cases hb with
  | head => exact fun hax => hacross a ha y List.mem_cons_self (trans_of r hax h.rises)
  | tail _ hb => exact hacross a ha b (List.mem_cons_of_mem y hb)

/-- No rearrangement lies between a list and the turned one. -/
theorem Turned.least (h : Turned r l m) (hq : q.Perm l) (hlq : List.Lex r l q) :
    q = m ∨ List.Lex r m q := by
  cases h with
  | @pivot front x y left right h =>
    induction front generalizing q with
    | nil =>
      rw [List.nil_append] at hq hlq ⊢
      cases hlq with
      | cons hlq => exact absurd hlq (not_lex_of_descending h.descending hq.cons_inv)
      | @rel _ _ b q hxb =>
        have hmem : b ∈ left ++ y :: right := by
          cases List.mem_cons.mp (hq.subset List.mem_cons_self) with
          | inl heq => exact absurd (heq ▸ hxb) (irrefl x)
          | inr hmem => exact hmem
        have hby : b = y ∨ r y b := by
          have hdesc := List.pairwise_append.mp h.descending
          rcases List.mem_append.mp hmem with hleft | hrest
          · rcases trichotomous_of r b y with hlt | heq | hgt
            · exact absurd hlt (hdesc.2.2 b hleft y List.mem_cons_self)
            · exact .inl heq
            · exact .inr hgt
          · cases hrest with
            | head => exact .inl rfl
            | tail _ hmem => exact absurd hxb (h.rest b hmem)
        cases hby with
        | inr hyb => exact .inr (.rel hyb)
        | inl heq =>
          subst heq
          -- what is left is a rearrangement of the elements after the exchange
          have hrest := (hq.trans (exchange_perm x b left right).symm).cons_inv
          have hasc := List.pairwise_reverse.mpr h.descending_exchange
          have hfirst := eq_or_lex_of_ascending hasc (hrest.trans (List.reverse_perm _).symm)
          exact hfirst.imp (congrArg _) .cons
    | cons a front ih =>
      cases hlq with
      | rel hab => exact .inr (.rel hab)
      | cons hlq => exact (ih hq.cons_inv hlq).imp (congrArg _) .cons

end Turned

section Neighbours

variable {α : Type*} [LinearOrder α]

theorem isLeast_of_turned {l m : List α} (h : Turned (· < ·) l m) :
    IsLeast {q | q.Perm l ∧ l < q} m := by
  refine ⟨⟨h.perm, h.lex⟩, ?_⟩
  rintro q ⟨hperm, hlt⟩
  rcases h.least hperm hlt with heq | hlex
  · exact heq.symm.le
  · exact le_of_lt hlex

theorem isGreatest_of_turned {l m : List α} (h : Turned (· > ·) l m) :
    IsGreatest {q | q.Perm l ∧ q < l} m := by
  refine ⟨⟨h.perm, (lex_swap h.perm.length_eq.symm).mp h.lex⟩, ?_⟩
  rintro q ⟨hperm, hlt⟩
  rcases h.least hperm ((lex_swap hperm.length_eq.symm).mpr hlt) with heq | hlex
  · exact heq.le
  · exact le_of_lt ((lex_swap (h.perm.length_eq.trans hperm.length_eq.symm)).mp hlex)

/-- Going back from the next element of a set leads to where one was. -/
theorem isGreatest_of_isLeast {S : Set α} {a b : α} (ha : a ∈ S)
    (hb : IsLeast {q | q ∈ S ∧ a < q} b) : IsGreatest {q | q ∈ S ∧ q < b} a := by
  refine ⟨⟨ha, hb.1.2⟩, ?_⟩
  rintro q ⟨hq, hqb⟩
  by_contra hlt
  exact (hb.2 ⟨hq, not_le.mp hlt⟩).not_gt hqb

theorem isLeast_of_isGreatest {S : Set α} {a b : α} (ha : a ∈ S)
    (hb : IsGreatest {q | q ∈ S ∧ q < a} b) : IsLeast {q | q ∈ S ∧ b < q} a :=
  isGreatest_of_isLeast (α := αᵒᵈ) ha hb

end Neighbours

end InterviewQuestions.Library

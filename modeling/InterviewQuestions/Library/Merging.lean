import Mathlib.Algebra.BigOperators.Group.Multiset.Basic
import Mathlib.Algebra.GroupWithZero.Nat
import Mathlib.Algebra.Order.BigOperators.Group.List
import Mathlib.Algebra.Order.Group.Multiset
import Mathlib.Algebra.Order.Group.Nat
import Mathlib.Data.List.Sort
import Mathlib.Data.Multiset.Sort
import Mathlib.Tactic.Common

/-! A collection kept as a lower and an upper half. The greatest value below
and the least value above are neighbours in the sorted order, wherever the cut is. -/
namespace InterviewQuestions.Library.SortedHalves

variable {α : Type*} [LinearOrder α] {lower upper values values' : List α} {a : α}

def sorted (values : List α) : List α := values.mergeSort (· ≤ ·)

theorem sorted_perm (values : List α) : (sorted values).Perm values := List.mergeSort_perm _ _

@[simp] theorem length_sorted (values : List α) : (sorted values).length = values.length :=
  (sorted_perm values).length_eq

theorem sorted_pairwise (values : List α) : (sorted values).Pairwise (· ≤ ·) :=
  List.pairwise_mergeSort' _ _

@[simp] theorem sorted_singleton (a : α) : sorted [a] = [a] := List.mergeSort_singleton _

theorem sorted_congr (h : values.Perm values') : sorted values = sorted values' := by
  apply List.Perm.eq_of_pairwise' (sorted_pairwise values) (sorted_pairwise values')
  exact ((sorted_perm values).trans h).trans (sorted_perm values').symm

theorem sorted_append (h : ∀ a ∈ lower, ∀ b ∈ upper, a ≤ b) :
    sorted (lower ++ upper) = sorted lower ++ sorted upper := by
  apply List.Perm.eq_of_pairwise' (sorted_pairwise _)
  · apply List.pairwise_append.mpr ⟨sorted_pairwise lower, sorted_pairwise upper, _⟩
    intro a ha b hb
    exact h a ((sorted_perm lower).mem_iff.mp ha) b ((sorted_perm upper).mem_iff.mp hb)
  · exact (sorted_perm _).trans ((sorted_perm lower).append (sorted_perm upper)).symm

/-- The least value is first in the sorted order. -/
theorem sorted_least (hmem : a ∈ values) (hle : ∀ b ∈ values, a ≤ b) :
    (sorted values)[0]? = some a := by
  have hsplit : sorted ([a] ++ values.erase a) = sorted [a] ++ sorted (values.erase a) := by
    apply sorted_append
    intro b hb c hc
    rw [List.mem_singleton.mp hb]
    exact hle c (List.mem_of_mem_erase hc)
  rw [sorted_congr (List.perm_cons_erase hmem), ← List.singleton_append, hsplit, sorted_singleton]
  rfl

/-- The greatest value is last in the sorted order. -/
theorem sorted_greatest (hmem : a ∈ values) (hle : ∀ b ∈ values, b ≤ a) :
    (sorted values)[values.length - 1]? = some a := by
  have hperm : values.Perm (values.erase a ++ [a]) :=
    (List.perm_cons_erase hmem).trans (List.perm_append_singleton _ _).symm
  have hsplit : sorted (values.erase a ++ [a]) = sorted (values.erase a) ++ sorted [a] := by
    apply sorted_append
    intro b hb c hc
    rw [List.mem_singleton.mp hc]
    exact hle b (List.mem_of_mem_erase hb)
  have hlength : values.length - 1 = (sorted (values.erase a)).length := by
    rw [length_sorted, List.length_erase_of_mem hmem]
  rw [sorted_congr hperm, hsplit, hlength, List.getElem?_append_right le_rfl, Nat.sub_self,
    sorted_singleton]
  rfl

/-- The values cut in two, nothing below exceeding anything above. -/
structure Halves (lower upper values : List α) : Prop where
  perm : (lower ++ upper).Perm values
  below : ∀ a ∈ lower, ∀ b ∈ upper, a ≤ b

theorem Halves.nil : Halves ([] : List α) [] [] := ⟨List.Perm.refl _, by simp⟩

theorem Halves.length (h : Halves lower upper values) :
    lower.length + upper.length = values.length := by
  rw [← List.length_append]
  exact h.perm.length_eq

theorem Halves.sorted_eq (h : Halves lower upper values) :
    sorted values = sorted lower ++ sorted upper := by
  rw [sorted_congr h.perm.symm, sorted_append h.below]

/-- The greatest value below, in the sorted order of all. -/
theorem Halves.sorted_below (h : Halves lower upper values) (hmem : a ∈ lower)
    (hle : ∀ b ∈ lower, b ≤ a) : (sorted values)[lower.length - 1]? = some a := by
  have hpos := List.length_pos_of_mem hmem
  rw [h.sorted_eq, List.getElem?_append_left (by rw [length_sorted]; omega)]
  exact sorted_greatest hmem hle

/-- The least value above, in the sorted order of all. -/
theorem Halves.sorted_above (h : Halves lower upper values) (hmem : a ∈ upper)
    (hle : ∀ b ∈ upper, a ≤ b) : (sorted values)[lower.length]? = some a := by
  rw [h.sorted_eq, List.getElem?_append_right (by rw [length_sorted]), length_sorted, Nat.sub_self]
  exact sorted_least hmem hle

theorem Halves.congr {lower' upper' : List α} (h : Halves lower upper values)
    (hlower : lower'.Perm lower) (hupper : upper'.Perm upper) : Halves lower' upper' values where
  perm := (hlower.append hupper).trans h.perm
  below a ha b hb := h.below a (hlower.mem_iff.mp ha) b (hupper.mem_iff.mp hb)

theorem Halves.of_perm (h : Halves lower upper values) (hperm : values.Perm values') :
    Halves lower upper values' := ⟨h.perm.trans hperm, h.below⟩

/-- A value that exceeds nothing above goes below. -/
theorem Halves.addBelow (h : Halves lower upper values) (hle : ∀ b ∈ upper, a ≤ b) :
    Halves (a :: lower) upper (a :: values) where
  perm := h.perm.cons a
  below b hb := by
    rcases List.mem_cons.mp hb with rfl | hb
    · exact hle
    · exact h.below b hb

/-- A value that nothing below exceeds goes above. -/
theorem Halves.addAbove (h : Halves lower upper values) (hle : ∀ b ∈ lower, b ≤ a) :
    Halves lower (a :: upper) (a :: values) where
  perm := List.perm_middle.trans (h.perm.cons a)
  below b hb c hc := by
    rcases List.mem_cons.mp hc with rfl | hc
    · exact hle b hb
    · exact h.below b hb c hc

/-- The greatest value below moves above. -/
theorem Halves.raise (h : Halves (a :: lower) upper values) (hle : ∀ b ∈ lower, b ≤ a) :
    Halves lower (a :: upper) values where
  perm := List.perm_middle.trans h.perm
  below b hb c hc := by
    rcases List.mem_cons.mp hc with rfl | hc
    · exact hle b hb
    · exact h.below b (List.mem_cons_of_mem a hb) c hc

/-- The least value above moves below. -/
theorem Halves.sink (h : Halves lower (a :: upper) values) (hle : ∀ b ∈ upper, a ≤ b) :
    Halves (a :: lower) upper values where
  perm := List.perm_middle.symm.trans h.perm
  below b hb := by
    rcases List.mem_cons.mp hb with rfl | hb
    · exact hle
    · intro c hc
      exact h.below b hb c (List.mem_cons_of_mem a hc)

end InterviewQuestions.Library.SortedHalves

/-! What it costs to merge weights into one, two at a time, when each merge costs the weight of its
result, and for which weights it is best to add them to one pile. -/
namespace InterviewQuestions.Library.Merging

/-- All weights are merged at this total cost. -/
inductive Merges : Multiset ℕ → ℕ → Prop where
  | one (x : ℕ) : Merges {x} 0
  | merge {x y n : ℕ} {rest : Multiset ℕ} (h : Merges ((x + y) ::ₘ rest) n) :
      Merges (x ::ₘ y ::ₘ rest) (x + y + n)

/-- The cost of adding the weights to one pile, those at the end of the list first. -/
def pile : List ℕ → ℕ
  | [] => 0
  | [_] => 0
  | x :: y :: l => x + (y + l.sum) + pile (y :: l)

/-- No weight is less than all those together that come behind the next one. -/
def Grows : List ℕ → Prop
  | x :: y :: l => l.sum ≤ x ∧ Grows (y :: l)
  | _ => True

variable {x y n : ℕ} {l l' : List ℕ} {m b r rest : Multiset ℕ}

theorem pile_cons (x : ℕ) (hl : l ≠ []) : pile (x :: l) = x + l.sum + pile l := by
  cases l with
  | nil => exact absurd rfl hl
  | cons y l => rw [pile, List.sum_cons]

theorem Merges.add (h : Merges m n) (x : ℕ) : Merges (x ::ₘ m) (x + m.sum + n) := by
  induction h with
  | one y =>
    rw [Multiset.sum_singleton, ← Multiset.cons_zero y]
    exact .merge (.one (x + y))
  | @merge a b n rest _ ih =>
    rw [Multiset.cons_swap, Multiset.sum_cons] at ih
    have hcost : x + (a ::ₘ b ::ₘ rest).sum + (a + b + n) =
        a + b + (x + (a + b + rest.sum) + n) := by
      simp only [Multiset.sum_cons]
      omega
    rw [hcost, Multiset.cons_swap x a, Multiset.cons_swap x b]
    exact .merge ih

theorem merges_pile (hl : l ≠ []) : Merges l (pile l) := by
  induction l with
  | nil => exact absurd rfl hl
  | cons x l ih =>
    by_cases hl : l = []
    · subst hl
      exact .one x
    · rw [pile_cons x hl, ← Multiset.cons_coe, ← Multiset.sum_coe]
      exact (ih hl).add x

/-! ## When a pile is best -/

/-- Where the weights do not grow like this, two of them are better merged apart from the others. -/
theorem grows_of_least (h : ∀ n, Merges l n → pile l ≤ n) : Grows l := by
  induction l with
  | nil => trivial
  | cons x l ih =>
    cases l with
    | nil => trivial
    | cons y l =>
      refine ⟨?_, ih fun n hn => ?_⟩
      · by_cases hl : l = []
        · subst hl
          exact Nat.zero_le x
        · have hother := Merges.merge ((merges_pile hl).add (x + y))
          have hle := h _ hother
          rw [pile_cons x (List.cons_ne_nil y l), pile_cons y hl, List.sum_cons,
            Multiset.sum_coe] at hle
          omega
      · have hle := h _ (hn.add x)
        rw [pile_cons x (List.cons_ne_nil y l), Multiset.sum_coe] at hle
        omega

theorem Grows.sublist (h : Grows l) (hl : l'.Sublist l) : Grows l' := by
  induction hl with
  | slnil => trivial
  | @cons l' l x _ ih =>
    refine ih ?_
    cases l with
    | nil => trivial
    | cons y l => exact h.2
  | @cons_cons l' l x hsub ih =>
    cases l' with
    | nil => trivial
    | cons y' l' =>
      cases l with
      | nil => cases hsub
      | cons y l => exact ⟨(hsub.tail.sum_le_sum fun _ _ => Nat.zero_le _).trans h.1, ih h.2⟩

/-! ## The largest weight last -/

def descending (m : Multiset ℕ) : List ℕ := m.sort (· ≥ ·)

theorem descending_cons (hx : ∀ y ∈ m, y ≤ x) : descending (x ::ₘ m) = x :: descending m :=
  Multiset.sort_cons x m (· ≥ ·) hx

theorem coe_descending (m : Multiset ℕ) : (descending m : Multiset ℕ) = m :=
  Multiset.sort_eq m (· ≥ ·)

theorem descending_ne_nil (hm : m ≠ 0) : descending m ≠ [] := by
  intro h
  have hcoe := coe_descending m
  rw [h] at hcoe
  exact hm hcoe.symm

theorem pile_descending_cons (hx : ∀ y ∈ m, y ≤ x) (hm : m ≠ 0) :
    pile (descending (x ::ₘ m)) = x + m.sum + pile (descending m) := by
  rw [descending_cons hx, pile_cons x (descending_ne_nil hm), ← Multiset.sum_coe, coe_descending]

theorem grows_descending_mono (h : Grows (descending m)) (hb : b ≤ m) : Grows (descending b) := by
  have hsub : (descending b).Subperm (descending m) := by
    rw [← coe_descending b, ← coe_descending m] at hb
    exact hb
  exact h.sublist (List.sublist_of_subperm_of_pairwise hsub (Multiset.pairwise_sort b (· ≥ ·))
    (Multiset.pairwise_sort m (· ≥ ·)))

theorem sum_le_of_grows (h : Grows (descending (x ::ₘ y ::ₘ m))) (hx : ∀ z ∈ y ::ₘ m, z ≤ x)
    (hy : ∀ z ∈ m, z ≤ y) : m.sum ≤ x := by
  rw [descending_cons hx, descending_cons hy] at h
  have hle := h.1
  rwa [← Multiset.sum_coe, coe_descending] at hle

theorem exists_largest (hm : m ≠ 0) : ∃ x rest, m = x ::ₘ rest ∧ ∀ y ∈ rest, y ≤ x := by
  obtain ⟨x, l, hl⟩ := List.exists_cons_of_ne_nil (descending_ne_nil hm)
  have hsorted : (descending m).Pairwise (· ≥ ·) := Multiset.pairwise_sort m (· ≥ ·)
  rw [hl] at hsorted
  refine ⟨x, l, ?_, fun y hy => (List.pairwise_cons.mp hsorted).1 y hy⟩
  rw [← coe_descending m, hl]
  rfl

theorem add_ne_zero (b : Multiset ℕ) (hr : r ≠ 0) : b + r ≠ 0 := by
  intro h
  have hle : r ≤ b + r := Multiset.le_add_left r b
  rw [h, Multiset.le_zero] at hle
  exact hr hle

theorem pile_orderedInsert (x : ℕ) (l : List ℕ) :
    pile (l.orderedInsert (· ≥ ·) x) ≤ pile (x :: l) := by
  induction l with
  | nil => exact le_rfl
  | cons y l ih =>
    rw [List.orderedInsert_cons]
    split
    case isTrue => exact le_rfl
    case isFalse hxy =>
      have hperm : (l.orderedInsert (· ≥ ·) x).Perm (x :: l) := List.perm_orderedInsert _ x l
      have hne : l.orderedInsert (· ≥ ·) x ≠ [] := by
        intro h
        rw [h] at hperm
        exact List.cons_ne_nil x l hperm.nil_eq.symm
      have hle : pile (x :: l) ≤ pile (y :: l) := by
        by_cases hl : l = []
        · subst hl
          exact le_rfl
        · rw [pile_cons x hl, pile_cons y hl]
          omega
      rw [pile_cons y hne, pile_cons x (List.cons_ne_nil y l), hperm.sum_eq, List.sum_cons,
        List.sum_cons]
      omega

/-- Among the orders the descending one costs least. -/
theorem pile_descending_le (l : List ℕ) : pile (descending l) ≤ pile l := by
  have hsort : descending l = l.insertionSort (· ≥ ·) := by
    refine List.Perm.eq_of_pairwise' (r := (· ≥ ·)) (Multiset.pairwise_sort _ (· ≥ ·))
      (List.pairwise_insertionSort (· ≥ ·) l) ?_
    rw [← Multiset.coe_eq_coe, coe_descending]
    exact Multiset.coe_eq_coe.mpr (List.perm_insertionSort (· ≥ ·) l).symm
  rw [hsort]
  clear hsort
  induction l with
  | nil => exact le_rfl
  | cons x l ih =>
    rw [List.insertionSort_cons]
    refine (pile_orderedInsert x _).trans ?_
    by_cases hl : l = []
    · subst hl
      exact le_rfl
    · have hperm := List.perm_insertionSort (· ≥ ·) l
      have hne : l.insertionSort (· ≥ ·) ≠ [] := by
        intro h
        rw [h] at hperm
        exact hl hperm.nil_eq.symm
      rw [pile_cons x hl, pile_cons x hne, hperm.sum_eq]
      exact Nat.add_le_add_left ih _

/-- The step of `pile_add_le`, for the largest weight: either all of `r` together weighs less, or
the second largest one is in `r`. -/
theorem pile_cons_add_le
    (ih : ∀ b' r' : Multiset ℕ, b' + r' ≤ b + r → b' ≠ 0 → r' ≠ 0 →
      pile (descending (b' + r')) ≤ pile (descending b') + pile (descending r') + (b' + r').sum)
    (hgrows : Grows (descending (x ::ₘ (b + r)))) (hx : ∀ z ∈ b + r, z ≤ x) (hr : r ≠ 0) :
    pile (descending (x ::ₘ (b + r))) ≤
      pile (descending (x ::ₘ b)) + pile (descending r) + (x ::ₘ (b + r)).sum := by
  have hxb (z) (hz : z ∈ b) : z ≤ x := hx z (Multiset.mem_add.mpr (.inl hz))
  have hne : b + r ≠ 0 := add_ne_zero b hr
  rw [pile_descending_cons hx hne, Multiset.sum_cons]
  by_cases hb : b = 0
  · subst hb
    rw [zero_add]
    omega
  rw [pile_descending_cons hxb hb, Multiset.sum_add]
  by_cases hsum : r.sum ≤ x
  · have hle := ih b r le_rfl hb hr
    rw [Multiset.sum_add] at hle
    omega
  · obtain ⟨y, rest, hrest, hy⟩ := exists_largest hne
    have hle : rest.sum ≤ x := by
      rw [hrest] at hgrows hx
      exact sum_le_of_grows hgrows hx hy
    have hmem : y ∈ b + r := hrest ▸ Multiset.mem_cons_self y rest
    have hyx := hx y hmem
    rcases Multiset.mem_add.mp hmem with hyb | hyr
    · obtain ⟨b', rfl⟩ := Multiset.exists_cons_of_mem hyb
      rw [Multiset.cons_add, Multiset.cons_inj_right] at hrest
      rw [← hrest, Multiset.sum_add] at hle
      omega
    · obtain ⟨r', rfl⟩ := Multiset.exists_cons_of_mem hyr
      rw [Multiset.add_cons, Multiset.cons_inj_right] at hrest
      subst hrest
      rw [Multiset.sum_cons] at hsum ⊢
      have hr' : r' ≠ 0 := by
        rintro rfl
        rw [Multiset.sum_zero] at hsum
        omega
      have hyr' (z) (hz : z ∈ r') : z ≤ y := hy z (Multiset.mem_add.mpr (.inr hz))
      have hne' : b + r' ≠ 0 := add_ne_zero b hr'
      have hapart := ih b r' (by rw [Multiset.add_cons]; exact Multiset.le_cons_self _ y) hb hr'
      rw [Multiset.add_cons, pile_descending_cons hy hne', pile_descending_cons hyr' hr']
      rw [Multiset.sum_add] at hapart hle ⊢
      omega

/-- Weights that grow are not better put on two piles that are merged then. -/
theorem pile_add_le (hgrows : Grows (descending (b + r))) (hb : b ≠ 0) (hr : r ≠ 0) :
    pile (descending (b + r)) ≤ pile (descending b) + pile (descending r) + (b + r).sum := by
  induction hn : (b + r).card using Nat.strong_induction_on generalizing b r with
  | _ n ih =>
    have hne : b + r ≠ 0 := add_ne_zero b hr
    obtain ⟨x, rest, hrest, hx⟩ := exists_largest hne
    have hsmaller (b' r' : Multiset ℕ) (hle : b' + r' ≤ rest) (hb' : b' ≠ 0) (hr' : r' ≠ 0) :
        pile (descending (b' + r')) ≤
          pile (descending b') + pile (descending r') + (b' + r').sum := by
      refine ih _ ?_ (grows_descending_mono hgrows ?_) hb' hr' rfl
      · rw [← hn, hrest, Multiset.card_cons]
        exact Nat.lt_succ_of_le (Multiset.card_le_card hle)
      · rw [hrest]
        exact hle.trans (Multiset.le_cons_self rest x)
    have hmem : x ∈ b + r := hrest ▸ Multiset.mem_cons_self x rest
    rcases Multiset.mem_add.mp hmem with hxb | hxr
    · obtain ⟨b', rfl⟩ := Multiset.exists_cons_of_mem hxb
      rw [Multiset.cons_add, Multiset.cons_inj_right] at hrest
      subst hrest
      rw [Multiset.cons_add] at hgrows ⊢
      exact pile_cons_add_le hsmaller hgrows hx hr
    · obtain ⟨r', rfl⟩ := Multiset.exists_cons_of_mem hxr
      rw [Multiset.add_cons, Multiset.cons_inj_right, add_comm] at hrest
      subst hrest
      rw [Multiset.add_cons, add_comm b r'] at hgrows ⊢
      rw [Nat.add_comm (pile _)]
      exact pile_cons_add_le hsmaller hgrows hx hb

/-- Each weight stands for a group of the first ones, merged as a pile. -/
theorem Merges.pile_le_groups (h : Merges m n) {groups : Multiset (Multiset ℕ)}
    (hm : groups.map Multiset.sum = m) (hne : ∀ g ∈ groups, g ≠ 0)
    (hgrows : Grows (descending groups.sum)) :
    pile (descending groups.sum) ≤ (groups.map fun g => pile (descending g)).sum + n := by
  induction h generalizing groups with
  | one x =>
    obtain ⟨g, rfl, -⟩ := Multiset.map_eq_singleton.mp hm
    simp
  | @merge x y n rest _ ih =>
    obtain ⟨g, hg, hx, hm⟩ := (Multiset.map_eq_cons _ _ _ _).mpr hm
    obtain ⟨gs, rfl⟩ := Multiset.exists_cons_of_mem hg
    rw [Multiset.erase_cons_head] at hm
    obtain ⟨g', hg', hy, hm⟩ := (Multiset.map_eq_cons _ _ _ _).mpr hm
    obtain ⟨gs, rfl⟩ := Multiset.exists_cons_of_mem hg'
    rw [Multiset.erase_cons_head] at hm
    have hgne : g ≠ 0 := hne g hg
    have hgne' : g' ≠ 0 := hne g' (Multiset.mem_cons_of_mem hg')
    have hsum : ((g + g') ::ₘ gs).sum = (g ::ₘ g' ::ₘ gs).sum := by
      simp only [Multiset.sum_cons, add_assoc]
    have hmap : ((g + g') ::ₘ gs).map Multiset.sum = (x + y) ::ₘ rest := by
      rw [Multiset.map_cons, Multiset.sum_add, hx, hy, hm]
    have hall : ∀ g₀ ∈ (g + g') ::ₘ gs, g₀ ≠ 0 := by
      intro g₀ hg₀
      rcases Multiset.mem_cons.mp hg₀ with rfl | hmem
      · exact add_ne_zero g hgne'
      · exact hne g₀ (Multiset.mem_cons_of_mem (Multiset.mem_cons_of_mem hmem))
    have hle := ih hmap hall (hsum ▸ hgrows)
    have hboth : pile (descending (g + g')) ≤
        pile (descending g) + pile (descending g') + (g + g').sum := by
      refine pile_add_le (grows_descending_mono hgrows ?_) hgne hgne'
      rw [← hsum, Multiset.sum_cons]
      exact Multiset.le_add_right _ _
    have hcons (g : Multiset ℕ) (gs : Multiset (Multiset ℕ)) :
        ((g ::ₘ gs).map fun g => pile (descending g)).sum =
          pile (descending g) + (gs.map fun g => pile (descending g)).sum := by
      rw [Multiset.map_cons, Multiset.sum_cons]
    rw [hsum, hcons] at hle
    rw [Multiset.sum_add, hx, hy] at hboth
    rw [hcons, hcons]
    omega

theorem Merges.pile_le (h : Merges m n) (hgrows : Grows (descending m)) :
    pile (descending m) ≤ n := by
  have hsum : (m.map fun x => ({x} : Multiset ℕ)).sum = m := Multiset.sum_map_singleton m
  have hle := @Merges.pile_le_groups n m h (m.map fun x => {x}) (by simp) (by simp) (by rwa [hsum])
  rw [hsum, Multiset.map_map] at hle
  have hzero : (m.map ((fun g => pile (descending g)) ∘ fun x => {x})).sum = 0 := by
    refine Multiset.sum_eq_zero fun k hk => ?_
    obtain ⟨x, -, rfl⟩ := Multiset.mem_map.mp hk
    simp [descending, pile]
  omega

/-- Some pile costs as little as merging can, exactly if the weights grow. -/
theorem grows_iff (m : Multiset ℕ) :
    Grows (descending m) ↔ ∃ l : List ℕ, ↑l = m ∧ ∀ n, Merges m n → pile l ≤ n := by
  constructor
  · intro hgrows
    exact ⟨descending m, coe_descending m, fun n h => h.pile_le hgrows⟩
  · rintro ⟨l, rfl, hleast⟩
    refine grows_of_least fun n h => (pile_descending_le l).trans (hleast n ?_)
    rwa [coe_descending] at h

end InterviewQuestions.Library.Merging

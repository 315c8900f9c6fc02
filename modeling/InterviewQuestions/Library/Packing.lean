import Mathlib.Algebra.GroupWithZero.Nat
import Mathlib.Algebra.Order.BigOperators.Group.List
import Mathlib.Algebra.Order.Group.Nat
import Mathlib.Algebra.Order.Monoid.Unbundled.Basic
import Mathlib.Combinatorics.Enumerative.Composition
import Mathlib.Order.Bounds.Basic
import Mathlib.Order.MinMax

/-! The largest value that items of limited total weight can have. -/
namespace InterviewQuestions.Library.Packing

/-- The values of the choices of items, each with its weight and its value, that the capacity
allows. -/
def loads (items : List (ℕ × ℕ)) (capacity : ℕ) : Set ℕ :=
  {value | ∃ chosen : List (ℕ × ℕ), chosen.Sublist items ∧
    (chosen.map Prod.fst).sum ≤ capacity ∧ (chosen.map Prod.snd).sum = value}

/-- With the first item or without it. -/
def best : List (ℕ × ℕ) → ℕ → ℕ
  | [], _ => 0
  | (weight, value) :: items, capacity =>
      if weight ≤ capacity then max (best items capacity) (value + best items (capacity - weight))
      else best items capacity

variable {items : List (ℕ × ℕ)} {capacity value : ℕ}

theorem best_mem_loads (items : List (ℕ × ℕ)) (capacity : ℕ) :
    best items capacity ∈ loads items capacity := by
  induction items generalizing capacity with
  | nil => exact ⟨[], List.Sublist.refl [], Nat.zero_le capacity, rfl⟩
  | cons item items ih =>
    have hwithout : best items capacity ∈ loads (item :: items) capacity := by
      obtain ⟨chosen, hsub, hfits, hvalue⟩ := ih capacity
      exact ⟨chosen, hsub.cons item, hfits, hvalue⟩
    rw [best]
    split
    case isTrue hle =>
      rcases max_choice (best items capacity)
          (item.2 + best items (capacity - item.1)) with heq | heq
      · rw [heq]
        exact hwithout
      · obtain ⟨chosen, hsub, hfits, hvalue⟩ := ih (capacity - item.1)
        rw [heq]
        refine ⟨item :: chosen, hsub.cons_cons item, ?_, ?_⟩
        · rw [List.map_cons, List.sum_cons]
          omega
        · rw [List.map_cons, List.sum_cons, hvalue]
    case isFalse => exact hwithout

theorem le_best (h : value ∈ loads items capacity) : value ≤ best items capacity := by
  induction items generalizing capacity value with
  | nil =>
    obtain ⟨chosen, hsub, _, rfl⟩ := h
    rw [List.eq_nil_of_sublist_nil hsub]
    exact Nat.zero_le _
  | cons item items ih =>
    obtain ⟨chosen, hsub, hfits, rfl⟩ := h
    rw [best]
    cases hsub with
    | cons _ hsub =>
      have hle := ih ⟨chosen, hsub, hfits, rfl⟩
      split
      · exact hle.trans (Nat.le_max_left _ _)
      · exact hle
    | cons_cons _ hsub =>
      rename_i chosen
      rw [List.map_cons, List.sum_cons] at hfits ⊢
      have hle : (chosen.map Prod.snd).sum ≤ best items (capacity - item.1) :=
        ih ⟨chosen, hsub, by omega, rfl⟩
      rw [if_pos (by omega)]
      exact (Nat.add_le_add_left hle item.2).trans (Nat.le_max_right _ _)

theorem best_isGreatest (items : List (ℕ × ℕ)) (capacity : ℕ) :
    IsGreatest (loads items capacity) (best items capacity) :=
  ⟨best_mem_loads items capacity, fun _ h => le_best h⟩

/-- The order of the items does not matter. -/
theorem loads_reverse (items : List (ℕ × ℕ)) (capacity : ℕ) :
    loads items.reverse capacity = loads items capacity := by
  have hsub : ∀ items : List (ℕ × ℕ), loads items.reverse capacity ⊆ loads items capacity := by
    rintro items _ ⟨chosen, hsub, hfits, rfl⟩
    refine ⟨chosen.reverse, ?_, ?_, ?_⟩
    · rw [← List.reverse_reverse items]
      exact hsub.reverse
    · rwa [List.map_reverse, List.sum_reverse]
    · rw [List.map_reverse, List.sum_reverse]
  apply Set.Subset.antisymm (hsub items)
  have hback := hsub items.reverse
  rwa [List.reverse_reverse] at hback

/-- No choice is worth more than all items. -/
theorem best_le_sum (items : List (ℕ × ℕ)) (capacity : ℕ) :
    best items capacity ≤ (items.map Prod.snd).sum := by
  obtain ⟨chosen, hsub, _, hvalue⟩ := best_mem_loads items capacity
  rw [← hvalue]
  exact (hsub.map Prod.snd).sum_le_sum fun _ _ => Nat.zero_le _

end InterviewQuestions.Library.Packing

/-! The totals of the prices of the pieces that a length can be cut into. -/
namespace InterviewQuestions.Library.Cutting

variable {M : Type*} [AddMonoid M] {price : ℕ → M} {n p : ℕ} {pieces : Set ℕ}

def total (price : ℕ → M) (c : Composition n) : M := (c.blocks.map price).sum

def totals (price : ℕ → M) (n : ℕ) : Set M := Set.range fun c : Composition n => total price c

/-- The totals of the cuts whose first piece is one of `pieces`. -/
def led (price : ℕ → M) (n : ℕ) (pieces : Set ℕ) : Set M :=
  {v | ∃ p ∈ pieces, (0 < p ∧ p ≤ n) ∧ ∃ rest ∈ totals price (n - p), v = price p + rest}

theorem totals_zero (price : ℕ → M) : totals price 0 = {0} := by
  ext v
  constructor
  · rintro ⟨c, rfl⟩
    have hempty : c.blocks = [] := by
      apply List.eq_nil_iff_forall_not_mem.mpr
      intro b hb
      have hle := List.le_sum_of_mem hb
      have hpos := c.blocks_pos hb
      rw [c.blocks_sum] at hle
      omega
    change (c.blocks.map price).sum = 0
    rw [hempty]
    rfl
  · rintro rfl
    exact ⟨⟨[], (nomatch ·), rfl⟩, rfl⟩

theorem totals_eq_led (price : ℕ → M) (hn : 0 < n) (hpieces : Set.Icc 1 n ⊆ pieces) :
    totals price n = led price n pieces := by
  ext v
  constructor
  · rintro ⟨⟨blocks, hpos, hsum⟩, rfl⟩
    cases blocks with
    | nil => exact absurd hsum (by rw [List.sum_nil]; omega)
    | cons p blocks =>
      rw [List.sum_cons] at hsum
      have hp := hpos List.mem_cons_self
      have hrest : blocks.sum = n - p := by omega
      refine ⟨p, hpieces ⟨hp, by omega⟩, ⟨hp, by omega⟩, _,
        ⟨⟨blocks, fun hb => hpos (List.mem_cons_of_mem p hb), hrest⟩, rfl⟩, ?_⟩
      exact List.sum_cons
  · rintro ⟨p, -, ⟨hp, hle⟩, _, ⟨⟨blocks, hpos, hsum⟩, rfl⟩, rfl⟩
    refine ⟨⟨p :: blocks, ?_, ?_⟩, List.sum_cons⟩
    · intro b hb
      cases hb with
      | head => exact hp
      | tail _ hb => exact hpos hb
    · rw [List.sum_cons, hsum]
      omega

theorem led_insert (price : ℕ → M) (n p : ℕ) (pieces : Set ℕ) :
    led price n (insert p pieces) = led price n {p} ∪ led price n pieces := by
  ext v
  constructor
  · rintro ⟨q, hq, h⟩
    cases hq with
    | inl heq => exact .inl ⟨q, heq, h⟩
    | inr hmem => exact .inr ⟨q, hmem, h⟩
  · rintro (⟨q, hq, h⟩ | ⟨q, hq, h⟩)
    · exact ⟨q, .inl hq, h⟩
    · exact ⟨q, .inr hq, h⟩

theorem add_mem_totals {rest : M} (hp : 0 < p) (hle : p ≤ n) (h : rest ∈ totals price (n - p)) :
    price p + rest ∈ totals price n := by
  rw [totals_eq_led price (by omega) (Set.Subset.refl _)]
  exact ⟨p, ⟨hp, hle⟩, ⟨hp, hle⟩, rest, h, rfl⟩

variable [LinearOrder M] [AddLeftMono M] {best rest : M}

/-- The best cut with a given first piece has a best cut of the rest. -/
theorem isGreatest_led_singleton (hp : 0 < p) (hle : p ≤ n)
    (h : IsGreatest (totals price (n - p)) rest) :
    IsGreatest (led price n {p}) (price p + rest) := by
  refine ⟨⟨p, rfl, ⟨hp, hle⟩, rest, h.1, rfl⟩, ?_⟩
  rintro _ ⟨_, rfl, -, other, hother, rfl⟩
  gcongr
  exact h.2 hother

theorem isGreatest_led_insert (hp : 0 < p) (hle : p ≤ n)
    (hbest : IsGreatest (led price n pieces) best)
    (h : IsGreatest (totals price (n - p)) rest) :
    IsGreatest (led price n (insert p pieces)) (max best (price p + rest)) := by
  rw [led_insert, max_comm]
  exact (isGreatest_led_singleton hp hle h).union hbest

end InterviewQuestions.Library.Cutting

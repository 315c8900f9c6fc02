import Mathlib.Algebra.Order.Monoid.Canonical.Defs
import Mathlib.Data.Multiset.Bind

/-! Things are put into boxes that take one or two of them, up to a capacity. The heaviest one may
as well go with any other that it can go with. -/
namespace InterviewQuestions.Library.Pairing

variable {α : Type*} [AddCommMonoid α] [LinearOrder α]

structure Boxed (capacity : α) (items : Multiset α) (boxes : Multiset (Multiset α)) : Prop where
  contents : boxes.join = items
  places : ∀ box ∈ boxes, box.card = 1 ∨ box.card = 2
  load : ∀ box ∈ boxes, box.sum ≤ capacity

/-- That many boxes are enough. -/
def Enough (capacity : α) (items : Multiset α) (n : ℕ) : Prop :=
  ∃ boxes, Boxed capacity items boxes ∧ boxes.card ≤ n

variable {capacity a b : α} {items : Multiset α} {boxes : Multiset (Multiset α)} {m n : ℕ}

theorem Boxed.add {box : Multiset α} (h : Boxed capacity items boxes)
    (hplaces : box.card = 1 ∨ box.card = 2) (hload : box.sum ≤ capacity) :
    Boxed capacity (box + items) (box ::ₘ boxes) where
  contents := by rw [Multiset.join_cons, h.contents]
  places := by
    intro box' hbox'
    rcases Multiset.mem_cons.mp hbox' with rfl | hbox'
    · exact hplaces
    · exact h.places box' hbox'
  load := by
    intro box' hbox'
    rcases Multiset.mem_cons.mp hbox' with rfl | hbox'
    · exact hload
    · exact h.load box' hbox'

theorem Enough.mono (h : Enough capacity items m) (hle : m ≤ n) : Enough capacity items n := by
  obtain ⟨boxes, hboxes, hcard⟩ := h
  exact ⟨boxes, hboxes, hcard.trans hle⟩

theorem enough_zero (capacity : α) (n : ℕ) : Enough capacity 0 n := by
  refine ⟨0, ⟨Multiset.join_zero, ?_, ?_⟩, Nat.zero_le n⟩
  · exact fun box hbox => absurd hbox (Multiset.notMem_zero box)
  · exact fun box hbox => absurd hbox (Multiset.notMem_zero box)

theorem Enough.alone (h : Enough capacity items n) (ha : a ≤ capacity) :
    Enough capacity (a ::ₘ items) (n + 1) := by
  obtain ⟨boxes, hboxes, hcard⟩ := h
  refine ⟨{a} ::ₘ boxes, ?_, ?_⟩
  · rw [← Multiset.singleton_add]
    exact hboxes.add (.inl (Multiset.card_singleton a)) (by rwa [Multiset.sum_singleton])
  · rw [Multiset.card_cons]
    exact Nat.succ_le_succ hcard

theorem Enough.together (h : Enough capacity items n) (hab : a + b ≤ capacity) :
    Enough capacity (a ::ₘ b ::ₘ items) (n + 1) := by
  obtain ⟨boxes, hboxes, hcard⟩ := h
  refine ⟨{a, b} ::ₘ boxes, ?_, ?_⟩
  · have hpair : ({a, b} : Multiset α) + items = a ::ₘ b ::ₘ items := by
      rw [Multiset.insert_eq_cons, Multiset.cons_add, Multiset.singleton_add]
    rw [← hpair]
    exact hboxes.add (.inr (Multiset.card_pair a b)) (by rwa [Multiset.sum_pair])
  · rw [Multiset.card_cons]
    exact Nat.succ_le_succ hcard

/-- The first one is in a box, alone or with another one. -/
theorem Enough.split (h : Enough capacity (a ::ₘ items) m) :
    ∃ n, m = n + 1 ∧ (a ≤ capacity ∧ Enough capacity items n ∨
      ∃ b rest, items = b ::ₘ rest ∧ a + b ≤ capacity ∧ Enough capacity rest n) := by
  obtain ⟨boxes, hboxes, hcard⟩ := h
  have hmem : a ∈ boxes.join := by
    rw [hboxes.contents]
    exact Multiset.mem_cons_self a items
  obtain ⟨box, hbox, ha⟩ := Multiset.mem_join.mp hmem
  obtain ⟨others, rfl⟩ := Multiset.exists_cons_of_mem hbox
  obtain ⟨rest, rfl⟩ := Multiset.exists_cons_of_mem ha
  have hload := hboxes.load _ hbox
  have hplaces := hboxes.places _ hbox
  have hothers : Boxed capacity others.join others :=
    ⟨rfl, fun box hbox => hboxes.places box (Multiset.mem_cons_of_mem hbox),
      fun box hbox => hboxes.load box (Multiset.mem_cons_of_mem hbox)⟩
  have hcontents := hboxes.contents
  rw [Multiset.join_cons, Multiset.cons_add, Multiset.cons_inj_right] at hcontents
  rw [Multiset.card_cons] at hcard hplaces
  rw [Multiset.sum_cons] at hload
  obtain ⟨n, rfl⟩ := Nat.exists_eq_add_of_le' (show 1 ≤ m by omega)
  refine ⟨n, rfl, ?_⟩
  rcases hplaces with hone | htwo
  · obtain rfl : rest = 0 := Multiset.card_eq_zero.mp (by omega)
    rw [Multiset.zero_add] at hcontents
    rw [Multiset.sum_zero, add_zero] at hload
    exact .inl ⟨hload, others, hcontents ▸ hothers, by omega⟩
  · obtain ⟨b, rfl⟩ := Multiset.card_eq_one.mp (show rest.card = 1 by omega)
    rw [Multiset.singleton_add] at hcontents
    rw [Multiset.sum_singleton] at hload
    exact .inr ⟨b, others.join, hcontents.symm, hload, others, hothers, by omega⟩

theorem enough_cons : Enough capacity (a ::ₘ items) (n + 1) ↔
    a ≤ capacity ∧ Enough capacity items n ∨
      ∃ b rest, items = b ::ₘ rest ∧ a + b ≤ capacity ∧ Enough capacity rest n := by
  constructor
  · intro h
    obtain ⟨m, hm, hsplit⟩ := h.split
    cases Nat.succ.inj hm
    exact hsplit
  · rintro (⟨ha, hitems⟩ | ⟨b, rest, rfl, hab, hrest⟩)
    · exact hitems.alone ha
    · exact hrest.together hab

/-- The one that can go with no other is alone. -/
theorem enough_alone (ha : a ≤ capacity) (hlight : ∀ b ∈ items, capacity < a + b) :
    Enough capacity (a ::ₘ items) (n + 1) ↔ Enough capacity items n := by
  constructor
  · intro h
    rcases enough_cons.mp h with ⟨-, hitems⟩ | ⟨b, rest, rfl, hab, -⟩
    · exact hitems
    · exact absurd hab (hlight b (Multiset.mem_cons_self b rest)).not_ge
  · exact fun h => h.alone ha

variable [CanonicallyOrderedAdd α]

theorem Enough.le_capacity (h : Enough capacity items n) (ha : a ∈ items) : a ≤ capacity := by
  obtain ⟨rest, rfl⟩ := Multiset.exists_cons_of_mem ha
  obtain ⟨n, rfl, ⟨hle, -⟩ | ⟨b, rest, rfl, hab, -⟩⟩ := h.split
  · exact hle
  · exact le_self_add.trans hab

/-- Without one of the things no more boxes are needed. -/
theorem Enough.of_cons (h : Enough capacity (a ::ₘ items) n) : Enough capacity items n := by
  obtain ⟨n, rfl, ⟨-, hitems⟩ | ⟨b, rest, rfl, hab, hrest⟩⟩ := h.split
  · exact hitems.mono (Nat.le_succ n)
  · exact hrest.alone (le_add_self.trans hab)

/-- Where two go with others, these others can go together, since one of the two is the
heaviest. -/
theorem enough_together [IsOrderedAddMonoid α] (hab : a + b ≤ capacity)
    (hheaviest : ∀ c ∈ items, c ≤ a) :
    Enough capacity (a ::ₘ b ::ₘ items) (n + 1) ↔ Enough capacity items n := by
  constructor
  · intro h
    rcases enough_cons.mp h with ⟨-, hitems⟩ | ⟨x, rest, heq, hax, hrest⟩
    · exact hitems.of_cons
    rcases Multiset.cons_eq_cons.mp heq with ⟨-, rfl⟩ | ⟨-, others, rfl, rfl⟩
    · exact hrest
    obtain ⟨n, rfl, ⟨-, hothers⟩ | ⟨y, rest, rfl, -, hrest⟩⟩ := hrest.split
    · exact hothers.alone (le_add_self.trans hax)
    · have hy : y ≤ a := hheaviest y (by simp)
      have hxy : x + y ≤ capacity := (add_le_add_right hy x).trans (by rwa [add_comm])
      exact hrest.together hxy
  · exact fun h => h.together hab

end InterviewQuestions.Library.Pairing

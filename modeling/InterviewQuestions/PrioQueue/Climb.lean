import InterviewQuestions.PrioQueue.Model
import Mathlib.Data.Multiset.AddSub

/-! `sift_up` climbs from slot `i` to slot `i/2`, while `sift_down` descends from `i`
to `2*i+1` and `2*i+2`. Even slots are not children of the slot that `sift_up`
compares them with, and `enqueue` keeps the heap only for the values that fit there. -/
namespace InterviewQuestions.PrioQueue

open Library Library.HeapOrder Library.ArrayHeap

variable {T : Type*} {heap : Array (PriorityQueueNode T)} {i : ℕ}

/-- The key that an even slot `i` gets, `val` or the one of `i/2`, is at least the key of
its parent slot `i/2-1`. From slot 4 the climb can still lower the parent's. -/
def FitsAbove (key : ℕ → ℤ) (val : ℤ) (i : ℕ) : Prop :=
  key (i / 2 - 1) ≤ max val (key (i / 2)) ∨ i = 4 ∧ val < key 2 ∧ val < key 1

/-- The key that an even slot `i` gets from `i/2` is at most those of `2*i+1` and `2*i+2`,
where the climb from `below` has left the key of `i` in `below`. -/
def FitsBelow (key : ℕ → ℤ) (size below i : ℕ) : Prop :=
  if below = 2 * i + 1 then key (i / 2) ≤ key i
  else (2 * i + 1 < size → key (i / 2) ≤ key (2 * i + 1)) ∧
    (2 * i + 2 < size → key (i / 2) ≤ key (2 * i + 2))

/-- A climb of `val` fits at every even slot `i` on its way, among the keys from before. -/
def Climbs (key : ℕ → ℤ) (size : ℕ) (val : ℤ) : ℕ → ℕ → ℕ → Prop
  | 0, _, _ => True
  | fuel + 1, below, i =>
      i = 0 ∨
        (i % 2 = 0 → FitsAbove key val i ∧ (val < key (i / 2) → FitsBelow key size below i)) ∧
        (val < key (i / 2) → Climbs key size val fuel i (i / 2))

instance decidableFitsAbove (key : ℕ → ℤ) (val : ℤ) (i : ℕ) : Decidable (FitsAbove key val i) :=
  inferInstanceAs
    (Decidable (key (i / 2 - 1) ≤ max val (key (i / 2)) ∨ i = 4 ∧ val < key 2 ∧ val < key 1))

instance decidableFitsBelow (key : ℕ → ℤ) (size below i : ℕ) :
    Decidable (FitsBelow key size below i) :=
  inferInstanceAs (Decidable (if below = 2 * i + 1 then key (i / 2) ≤ key i
    else (2 * i + 1 < size → key (i / 2) ≤ key (2 * i + 1)) ∧
      (2 * i + 2 < size → key (i / 2) ≤ key (2 * i + 2))))

instance decidableClimbs (key : ℕ → ℤ) (size : ℕ) (val : ℤ) :
    ∀ fuel below i, Decidable (Climbs key size val fuel below i)
  | 0, _, _ => isTrue trivial
  | fuel + 1, below, i =>
      haveI := decidableClimbs key size val fuel i (i / 2)
      inferInstanceAs (Decidable (i = 0 ∨
        (i % 2 = 0 → FitsAbove key val i ∧ (val < key (i / 2) → FitsBelow key size below i)) ∧
        (val < key (i / 2) → Climbs key size val fuel i (i / 2))))

/-- The keys during a climb of `val` that has come from `below` to `i`, against those
from before. -/
structure Climbing (key : ℕ → ℤ) (size : ℕ) (val : ℤ) (now : ℕ → ℤ) (below i : ℕ) : Prop where
  way : below = 2 * i ∨ below = 2 * i + 1
  start : i = size ∧ below = 2 * size ∨ below = size ∨ 2 * below ≤ size
  current : now i = val
  moved : i < below → below ≤ size → now below = key i
  rest : ∀ j ≤ size, j < 2 * below → j ≠ below → j ≠ i → now j = key j

variable {key now : ℕ → ℤ} {size below : ℕ} {val : ℤ}

theorem Climbing.le_size (h : Climbing key size val now below i) : i ≤ size := by
  have := h.way
  have := h.start
  omega

theorem Climbing.before (h : Climbing key size val now below i) {j : ℕ} (hj : j < i) :
    now j = key j := by
  have := h.way
  have := h.le_size
  exact h.rest j (by omega) (by omega) (by omega) (by omega)

theorem Climbing.swap (h : Climbing key size val now below i) :
    Climbing key size val (now ∘ Equiv.swap i (i / 2)) i (i / 2) where
  way := by omega
  start := by
    have := h.way
    have := h.start
    omega
  current := by
    rw [Function.comp_apply, Equiv.swap_apply_right]
    exact h.current
  moved _ _ := by
    rw [Function.comp_apply, Equiv.swap_apply_left]
    exact h.before (by omega)
  rest j hj hlt hi ht := by
    have := h.way
    rw [Function.comp_apply, Equiv.swap_apply_of_ne_of_ne hi ht]
    exact h.rest j hj (by omega) (by omega) hi

/-- A child of an even slot of the climb: the slot it came from, or one as before. -/
theorem Climbing.child (h : Climbing key size val now below i) (heven : i % 2 = 0) (hpos : 0 < i)
    {c : ℕ} (hc : c < size + 1) (hchild : c = 2 * i + 1 ∨ c = 2 * i + 2) :
    c = below ∧ now c = key i ∨ c ≠ below ∧ c < size ∧ now c = key c := by
  have hway := h.way
  have hstart := h.start
  by_cases hbelow : c = below
  · exact Or.inl ⟨hbelow, hbelow ▸ h.moved (by omega) (by omega)⟩
  · exact Or.inr ⟨hbelow, by omega, h.rest c (by omega) (by omega) hbelow (by omega)⟩

theorem Climbing.fitsBelow_iff (h : Climbing key size val now below i) (hheap : Ordered key size)
    (heven : i % 2 = 0) (hpos : 0 < i) : FitsBelow key size below i ↔
      ∀ c, 0 < c → c < size + 1 → parent c = i → key (i / 2) ≤ now c := by
  have hway := h.way
  have hstart := h.start
  unfold FitsBelow
  constructor
  · intro hfit c hc0 hc hp
    have hchild := child_cases hc0 hp
    rcases h.child heven hpos hc hchild with ⟨hbelow, hnow⟩ | ⟨hbelow, hlt, hnow⟩
    · rw [if_pos (by omega)] at hfit
      rwa [hnow]
    · rw [hnow]
      split at hfit
      · have hedge := hheap c hc0 hlt
        rw [hp] at hedge
        exact hfit.trans hedge
      · cases hchild with
        | inl hleft => exact hleft ▸ hfit.1 (hleft ▸ hlt)
        | inr hright => exact hright ▸ hfit.2 (hright ▸ hlt)
  · intro hall
    split
    · rename_i hodd
      have hle := hall below (by omega) (by omega) (hodd ▸ parent_left i)
      rwa [h.moved (by omega) (by omega)] at hle
    · rename_i hne
      constructor
      · intro hlt
        have hle := hall _ (by omega) (by omega) (parent_left i)
        rwa [h.rest _ (by omega) (by omega) (by omega) (by omega)] at hle
      · intro hlt
        have hle := hall _ (by omega) (by omega) (parent_right i)
        rwa [h.rest _ (by omega) (by omega) (by omega) (by omega)] at hle

theorem half_eq_parent (hodd : i % 2 ≠ 0) : i / 2 = parent i := by
  unfold parent
  omega

theorem parent_even (heven : i % 2 = 0) : parent i = i / 2 - 1 := by
  unfold parent
  omega

/-- Where the climb stops, only the slot it stops in can be out of order. -/
theorem Climbing.stop_iff (h : Climbing key size val now below i)
    (hord : OrderedButAbove now (size + 1) i) (hpos : 0 < i) (hstop : ¬ val < key (i / 2)) :
    Ordered now (size + 1) ↔ (i % 2 = 0 → FitsAbove key val i) := by
  have hparent := h.before (parent_lt hpos)
  have hmax : max val (key (i / 2)) = val := max_eq_left (not_lt.mp hstop)
  have hle := h.le_size
  constructor
  · intro hall heven
    have hedge := hall i hpos (by omega)
    rw [hparent, h.current, parent_even heven] at hedge
    exact Or.inl (hedge.trans_eq hmax.symm)
  · intro hfit
    apply hord.done
    intro _
    rw [hparent, h.current]
    by_cases heven : i % 2 = 0
    · rw [parent_even heven]
      cases hfit heven with
      | inl hup => exact hup.trans_eq hmax
      | inr hfour =>
        obtain ⟨rfl, hlt, _⟩ := hfour
        exact absurd hlt hstop
    · rw [← half_eq_parent heven]
      exact not_lt.mp hstop

/-- The climb touches the slot it is in and none other above the next. -/
theorem climb_of_ne (fuel : ℕ) {j : ℕ} (hne : j ≠ i) (hlt : i / 2 < j) :
    climb (· / 2) fuel now i j = now j := by
  induction fuel generalizing now i with
  | zero => rfl
  | succ fuel ih =>
    rw [climb]
    split
    · rw [ih hlt.ne' (by omega), Function.comp_apply, Equiv.swap_apply_of_ne_of_ne hne hlt.ne']
    · rfl

theorem climb_stop (fuel : ℕ) (hstop : ¬ now i < now (i / 2)) :
    climb (· / 2) fuel now i = now := by
  cases fuel with
  | zero => rfl
  | succ fuel => rw [climb, if_neg fun hand => hstop hand.2]

theorem climb_move (fuel : ℕ) (hpos : 0 < i) (hmove : now i < now (i / 2)) :
    climb (· / 2) (fuel + 1) now i = climb (· / 2) fuel (now ∘ Equiv.swap i (i / 2)) (i / 2) := by
  rw [climb, if_pos ⟨hpos.ne', hmove⟩]

theorem Climbing.moves (h : Climbing key size val now below i) (hpos : 0 < i)
    (hmove : val < key (i / 2)) : now i < now (i / 2) := by
  rw [h.current, h.before (by omega)]
  exact hmove

/-- The climb leaves the key of `i/2` in `i`. -/
theorem Climbing.climb_self (h : Climbing key size val now below i) (hpos : 0 < i)
    (hmove : val < key (i / 2)) (fuel : ℕ) : climb (· / 2) (fuel + 1) now i i = key (i / 2) := by
  rw [climb_move fuel hpos (h.moves hpos hmove), climb_of_ne fuel (by omega) (by omega),
    Function.comp_apply, Equiv.swap_apply_left]
  exact h.before (by omega)

theorem Climbing.fitsAbove_of_ordered (h : Climbing key size val now below i)
    (hheap : Ordered key size) (heven : i % 2 = 0) (hpos : 0 < i) (hmove : val < key (i / 2))
    {fuel : ℕ} (hall : Ordered (climb (· / 2) (fuel + 1) now i) (size + 1)) :
    FitsAbove key val i := by
  have hle := h.le_size
  have hedge := hall i hpos (by omega)
  rw [h.climb_self hpos hmove, parent_even heven,
    climb_move fuel hpos (h.moves hpos hmove)] at hedge
  have hbefore : (now ∘ Equiv.swap i (i / 2)) (i / 2 - 1) = key (i / 2 - 1) := by
    rw [Function.comp_apply, Equiv.swap_apply_of_ne_of_ne (by omega) (by omega)]
    exact h.before (by omega)
  -- whether a later step of the climb can reach the parent slot of `i`
  rcases Nat.lt_trichotomy i 4 with hlt | rfl | hgt
  · obtain rfl : i = 2 := by omega
    exact Or.inl ((hheap 1 (by decide) (by omega)).trans (le_max_right _ _))
  · by_cases hone : val < key 1
    · exact Or.inr ⟨rfl, hmove, hone⟩
    · rw [climb_stop] at hedge
      · rw [hbefore] at hedge
        exact Or.inl (hedge.trans (le_max_right _ _))
      · rw [h.swap.current, h.swap.before (by decide)]
        exact hone
  · rw [climb_of_ne fuel (by omega) (by omega), hbefore] at hedge
    exact Or.inl (hedge.trans (le_max_right _ _))

theorem Climbing.fitsBelow_of_ordered (h : Climbing key size val now below i)
    (hheap : Ordered key size) (heven : i % 2 = 0) (hpos : 0 < i) (hmove : val < key (i / 2))
    {fuel : ℕ} (hall : Ordered (climb (· / 2) (fuel + 1) now i) (size + 1)) :
    FitsBelow key size below i := by
  apply (h.fitsBelow_iff hheap heven hpos).mpr
  intro c hc0 hc hp
  have hic : i < c := hp ▸ parent_lt hc0
  have hedge := hall c hc0 hc
  rwa [hp, h.climb_self hpos hmove, climb_of_ne _ (by omega) (by omega)] at hedge

theorem Climbing.swapAside (h : Climbing key size val now below i) (hheap : Ordered key size)
    (hord : OrderedButAbove now (size + 1) i) (heven : i % 2 = 0) (hpos : 0 < i)
    (hmove : val < key (i / 2)) (hup : key (i / 2 - 1) ≤ key (i / 2))
    (hfit : FitsBelow key size below i) :
    OrderedButAbove (now ∘ Equiv.swap i (i / 2)) (size + 1) (i / 2) := by
  have hle := h.le_size
  have hparent := parent_even heven
  have hdown := (h.fitsBelow_iff hheap heven hpos).mp hfit
  rw [← h.before (by omega)] at hdown
  apply hord.swapAside (by omega) (by omega) (by omega) (h.moves hpos hmove) _ hdown
  rwa [hparent, h.before (by omega), h.before (by omega)]

theorem Climbing.swapRound (h : Climbing key size val now below 4) (hheap : Ordered key size)
    (hord : OrderedButAbove now (size + 1) 4) (hmove : val < key 2) (hone : val < key 1)
    (hfit : FitsBelow key size below 4) (hfit' : FitsBelow key size 4 2) :
    OrderedButAbove ((now ∘ Equiv.swap 4 2) ∘ Equiv.swap 2 1) (size + 1) 1 := by
  have hle := h.le_size
  have hdown := (h.fitsBelow_iff hheap rfl (by decide)).mp hfit
  have haside := (h.swap.fitsBelow_iff hheap rfl (by decide)).mp hfit'
  rw [← h.before (by decide)] at hdown
  apply hord.swapRound (t := 2) (by omega) (by decide) (by decide) (by decide) rfl
    (h.moves (by decide) hmove)
  · rw [h.current]
    exact hone.trans_eq (h.before (by decide)).symm
  · exact hdown
  · intro c hc0 hc hp
    have hle := haside c hc0 hc hp
    have hchild := child_cases hc0 hp
    rw [Function.comp_apply, Equiv.swap_apply_of_ne_of_ne (by omega) (by omega)] at hle
    exact (h.before (by decide)).trans_le hle

/-- A climb with this fuel keeps the heap order exactly if it fits all the way. -/
def Decides (key : ℕ → ℤ) (size : ℕ) (val : ℤ) (fuel : ℕ) : Prop :=
  ∀ now below i, i ≤ fuel → Climbing key size val now below i →
    OrderedButAbove now (size + 1) i →
    (Ordered (climb (· / 2) fuel now i) (size + 1) ↔ Climbs key size val fuel below i)

/-- A move out of slot 4 that leaves it below its parent slot, which the next move lowers. -/
theorem climb_round_iff (hheap : Ordered key size) {fuel : ℕ} (ih : Decides key size val fuel)
    (hfuel : 1 ≤ fuel) (hc : Climbing key size val now below 4)
    (hord : OrderedButAbove now (size + 1) 4) (hmove : val < key 2) (hone : val < key 1)
    (hfit : FitsBelow key size below 4) :
    Ordered (climb (· / 2) (fuel + 1) (now ∘ Equiv.swap 4 2) 2) (size + 1) ↔
      Climbs key size val (fuel + 1) 4 2 := by
  have hc' : Climbing key size val (now ∘ Equiv.swap 4 2) 4 2 := hc.swap
  rw [Climbs, or_iff_right (by decide)]
  simp only [Nat.reduceDiv, Nat.reduceMod, hone, true_imp_iff]
  by_cases hfit' : FitsAbove key val 2 ∧ FitsBelow key size 4 2
  · rw [and_iff_right hfit', climb_move fuel (by decide) (hc'.moves (by decide) hone)]
    exact ih _ _ _ hfuel hc'.swap (hc.swapRound hheap hord hmove hone hfit hfit'.2)
  · apply iff_of_false
    · intro hall
      apply hfit'
      exact ⟨hc'.fitsAbove_of_ordered hheap rfl (by decide) hone hall,
        hc'.fitsBelow_of_ordered hheap rfl (by decide) hone hall⟩
    · exact fun hand => hfit' hand.1

/-- A move out of an even slot, which can break the order above and below it. -/
theorem climb_even_iff (hheap : Ordered key size) {fuel : ℕ}
    (ih : ∀ fuel' ≤ fuel, Decides key size val fuel') (hfuel : i ≤ fuel + 1)
    (hc : Climbing key size val now below i) (hord : OrderedButAbove now (size + 1) i)
    (heven : i % 2 = 0) (hpos : 0 < i) (hmove : val < key (i / 2)) :
    Ordered (climb (· / 2) (fuel + 1) now i) (size + 1) ↔
      (FitsAbove key val i ∧ FitsBelow key size below i) ∧
        Climbs key size val fuel i (i / 2) := by
  by_cases hfit : FitsAbove key val i ∧ FitsBelow key size below i
  · rw [and_iff_right hfit, climb_move fuel hpos (hc.moves hpos hmove)]
    by_cases hup : key (i / 2 - 1) ≤ key (i / 2)
    · exact ih fuel le_rfl _ _ _ (by omega) hc.swap
        (hc.swapAside hheap hord heven hpos hmove hup hfit.2)
    · obtain ⟨rfl, -, hone⟩ := hfit.1.resolve_left fun hle =>
        hup (hle.trans_eq (max_eq_right hmove.le))
      cases fuel with
      | zero => omega
      | succ fuel =>
        exact climb_round_iff hheap (ih fuel (Nat.le_succ fuel)) (by omega) hc hord hmove hone
          hfit.2
  · apply iff_of_false
    · intro hall
      apply hfit
      exact ⟨hc.fitsAbove_of_ordered hheap heven hpos hmove hall,
        hc.fitsBelow_of_ordered hheap heven hpos hmove hall⟩
    · exact fun hand => hfit hand.1

theorem climb_ordered_iff (hheap : Ordered key size) (val : ℤ) (fuel : ℕ) :
    Decides key size val fuel := by
  induction fuel using Nat.strongRecOn with
  | _ fuel ih =>
    intro now below i hfuel hc hord
    cases fuel with
    | zero => exact iff_of_true (hord.done fun hpos => absurd hfuel (by omega)) trivial
    | succ fuel =>
      rcases Nat.eq_zero_or_pos i with hzero | hpos
      · rw [climb, if_neg fun hand => hand.1 hzero]
        exact iff_of_true (hord.done fun hpos => absurd hzero hpos.ne') (Or.inl hzero)
      have hle := hc.le_size
      rw [Climbs, or_iff_right hpos.ne']
      by_cases hmove : val < key (i / 2)
      · simp only [hmove, true_imp_iff]
        by_cases heven : i % 2 = 0
        · simp only [heven, true_imp_iff]
          exact climb_even_iff hheap (fun fuel' hle => ih fuel' (Nat.lt_succ_of_le hle)) hfuel hc
            hord heven hpos hmove
        · have hmoves := hc.moves hpos hmove
          rw [climb_move fuel hpos hmoves, and_iff_right fun h => absurd h heven]
          have hswap := hord.swap hpos (by omega) (half_eq_parent heven ▸ hmoves)
          rw [← half_eq_parent heven] at hswap
          exact ih fuel (Nat.lt_succ_self _) _ _ _ (by omega) hc.swap hswap
      · rw [climb_stop _ (by rwa [hc.current, hc.before (by omega)]),
          hc.stop_iff hord hpos hmove]
        simp only [hmove, false_imp_iff, and_true]

/-- The value sifts up from the end of the heap to where it fits. -/
def Settles (heap : Array (PriorityQueueNode T)) (val : Int32) : Prop :=
  Climbs (keyAt priority heap) heap.size val.toInt heap.size (2 * heap.size) heap.size

instance decidableSettles (heap : Array (PriorityQueueNode T)) (val : Int32) :
    Decidable (Settles heap val) :=
  decidableClimbs _ _ _ _ _ _

theorem climbing_push (heap : Array (PriorityQueueNode T)) (val : Int32) (obj : T) :
    Climbing (keyAt priority heap) heap.size val.toInt (keyAt priority (heap.push ⟨val, obj⟩))
      (2 * heap.size) heap.size where
  way := Or.inl rfl
  start := Or.inl ⟨rfl, rfl⟩
  current := by
    rw [keyAt_of_lt (by simp), Array.getElem_push_eq]
    rfl
  moved hlt hle := by omega
  rest j hj _ _ hne := by
    have hlt : j < heap.size := by omega
    rw [keyAt_of_lt hlt, keyAt_of_lt (by rw [Array.size_push]; omega), Array.getElem_push_lt]

theorem enqueue_isHeap_iff {val : Int32} {obj : T} (hheap : IsHeap heap) :
    IsHeap (enqueue heap val obj) ↔ Settles heap val := by
  have hsize : (enqueue heap val obj).size = heap.size + 1 := by
    simpa using (enqueue_perm heap val obj).length_eq
  have hpush := push_orderedButAbove ⟨val, obj⟩ hheap
  rw [Array.size_push] at hpush
  rw [IsHeap, hsize, enqueue, siftUp_eq,
    keyAt_siftUp (fun i => Nat.div_le_self i 2) (by simp)]
  exact climb_ordered_iff hheap _ _ _ _ _ le_rfl (climbing_push heap val obj) hpush

end InterviewQuestions.PrioQueue

/-! Runs of the queue against a bag of waiting nodes, from which each `dequeue`
takes a node of the least value. -/
namespace InterviewQuestions.PrioQueue

open Library Library.Machine

variable {T : Type*} {heap : Array (PriorityQueueNode T)}

/-- The node has the least value of a bag. -/
def Least (node : PriorityQueueNode T) (waiting : Multiset (PriorityQueueNode T)) : Prop :=
  ∀ other ∈ waiting, node.value ≤ other.value

/-- A call on the bag of the nodes enqueued and not yet dequeued. -/
def MinFirst : Multiset (PriorityQueueNode T) → Op T → Option (PriorityQueueNode T) →
    Multiset (PriorityQueueNode T) → Prop
  | waiting, .enqueue val obj, none, waiting' => waiting' = ⟨val, obj⟩ ::ₘ waiting
  | waiting, .dequeue, some node, waiting' => waiting = node ::ₘ waiting' ∧ Least node waiting
  | waiting, .peek, some node, waiting' =>
      waiting' = waiting ∧ node ∈ waiting ∧ Least node waiting
  | _, _, _, _ => False

/-- The bag of nodes in the heap. -/
def contents (heap : Array (PriorityQueueNode T)) : Multiset (PriorityQueueNode T) := heap.toList

/-- The head of the heap, which `dequeue` and `peek` report, has the least value. -/
def HeadLeast (heap : Array (PriorityQueueNode T)) : Op T → Prop
  | .enqueue _ _ => True
  | _ => ∀ head ∈ heap[0]?, ∀ other ∈ heap.toList, head.value ≤ other.value

instance decidableHeadLeast (heap : Array (PriorityQueueNode T)) :
    ∀ op : Op T, Decidable (HeadLeast heap op)
  | .enqueue _ _ => isTrue trivial
  | .dequeue => inferInstanceAs
      (Decidable (∀ head ∈ heap[0]?, ∀ other ∈ heap.toList, head.value ≤ other.value))
  | .peek => inferInstanceAs
      (Decidable (∀ head ∈ heap[0]?, ∀ other ∈ heap.toList, head.value ≤ other.value))

/-- An enqueued value settles. -/
def Settling (heap : Array (PriorityQueueNode T)) : Op T → Prop
  | .enqueue val _ => Settles heap val
  | _ => True

instance decidableSettling (heap : Array (PriorityQueueNode T)) :
    ∀ op : Op T, Decidable (Settling heap op)
  | .enqueue val _ => inferInstanceAs (Decidable (Settles heap val))
  | .dequeue => isTrue trivial
  | .peek => isTrue trivial

theorem contents_enqueue (heap : Array (PriorityQueueNode T)) (val : Int32) (obj : T) :
    contents (enqueue heap val obj) = ⟨val, obj⟩ ::ₘ contents heap :=
  Multiset.coe_eq_coe.mpr (enqueue_perm heap val obj)

theorem contents_popRoot (hpos : 0 < heap.size) :
    contents heap = heap[0] ::ₘ contents (ArrayHeap.popRoot priority heap) :=
  (Multiset.coe_eq_coe.mpr (ArrayHeap.popRoot_perm hpos)).symm

theorem headLeast_iff (hpos : 0 < heap.size) :
    (∀ head ∈ heap[0]?, ∀ other ∈ heap.toList, head.value ≤ other.value) ↔
      Least heap[0] (contents heap) := by
  rw [Array.getElem?_eq_getElem hpos]
  simp [Least, contents]

/-- The heap serves a call as the bag of its nodes does, exactly if its head is least. -/
theorem step_minFirst (op : Op T) (waiting : Multiset (PriorityQueueNode T))
    (hcall : Callable heap op) : MinFirst (contents heap) op (step heap op).2 waiting ↔
      HeadLeast heap op ∧ waiting = contents (step heap op).1 := by
  cases op with
  | enqueue val obj =>
    simp only [step, MinFirst, HeadLeast, contents_enqueue, true_and]
  | dequeue =>
    simp only [step, dequeue_of_pos hcall, MinFirst, HeadLeast]
    rw [headLeast_iff hcall, and_comm]
    apply and_congr_right
    intro _
    rw [contents_popRoot hcall, Multiset.cons_inj_right]
    exact eq_comm
  | peek =>
    have hhead : heap[0] ∈ contents heap := by
      rw [contents_popRoot hcall]
      exact Multiset.mem_cons_self _ _
    have hpeek : (step heap (.peek : Op T)).2 = some heap[0] := Array.getElem?_eq_getElem hcall
    rw [hpeek]
    simp only [MinFirst, HeadLeast, headLeast_iff hcall]
    constructor
    · rintro ⟨rfl, _, hleast⟩
      exact ⟨hleast, rfl⟩
    · rintro ⟨hleast, hsame⟩
      exact ⟨hsame, hhead, hleast⟩

/-- A run serves its calls as the bag does, exactly if the head is least at each of them. -/
theorem run_minFirst_iff {ops : List (Op T)} (hcalls : Admits step Callable #[] ops) :
    Follows MinFirst 0 ops (run step #[] ops).2 (contents (run step #[] ops).1) ↔
      Admits step HeadLeast #[] ops := by
  have hfollows := run_follows_iff contents (fun _ op waiting => step_minFirst op waiting)
    (t := contents (run step #[] ops).1) hcalls
  exact hfollows.trans (and_iff_left rfl)

theorem isHeap_empty : IsHeap (#[] : Array (PriorityQueueNode T)) := fun _ _ hi =>
  absurd hi (Nat.not_lt_zero _)

theorem step_isHeap (op : Op T) (hheap : IsHeap heap) (hcall : Callable heap op)
    (hsettles : Settling heap op) : IsHeap (step heap op).1 := by
  cases op with
  | enqueue val obj => exact (enqueue_isHeap_iff hheap).mpr hsettles
  | dequeue =>
    simp only [step, dequeue_of_pos hcall]
    exact ArrayHeap.popRoot_ordered hheap
  | peek => exact hheap

theorem headLeast_of_isHeap (op : Op T) (hheap : IsHeap heap) (hcall : Callable heap op) :
    HeadLeast heap op := by
  have hhead : ∀ hpos : 0 < heap.size, Least heap[0] (contents heap) := by
    intro hpos other hmem
    exact Int32.le_iff_toInt_le.mpr (ArrayHeap.root_le_of_mem hheap hpos hmem)
  cases op with
  | enqueue val obj => trivial
  | dequeue => exact (headLeast_iff hcall).mpr (hhead hcall)
  | peek => exact (headLeast_iff hcall).mpr (hhead hcall)

/-- In a run whose enqueued values all settle, `dequeue` takes and `peek` shows a node of
the least value among those enqueued and not yet dequeued. -/
theorem dequeues_least (ops : List (Op T)) (hcalls : Admits step Callable #[] ops)
    (hsettles : Admits step Settling #[] ops) :
    Follows MinFirst 0 ops (run step #[] ops).2 (contents (run step #[] ops).1) := by
  apply (run_minFirst_iff hcalls).mpr
  apply (hcalls.and hsettles).of_invariant IsHeap _ _ isHeap_empty
  · exact fun heap op hheap hok => step_isHeap op hheap hok.1 hok.2
  · exact fun heap op hheap hok => headLeast_of_isHeap op hheap hok.1

theorem dequeues_least_sample :
    let ops : List (Op Int32) := [.enqueue 5 50, .enqueue 7 70, .enqueue 6 60, .enqueue 9 90,
      .enqueue 3 30, .peek, .dequeue, .enqueue 1 10, .dequeue, .dequeue]
    Follows MinFirst 0 ops (run step #[] ops).2 (contents (run step #[] ops).1) :=
  dequeues_least _ (by decide +kernel) (by decide +kernel)

/-- After the first `dequeue` the heap is 4, 7, 5, 11. `sift_up` compares 6 in slot 4 with
the 5 of slot 2 and leaves it below the 7 of slot 1, which later comes to the head. -/
theorem dequeues_greater : ¬ ∀ ops : List (Op Int32), Admits step Callable #[] ops →
    Follows MinFirst 0 ops (run step #[] ops).2 (contents (run step #[] ops).1) := by
  intro hall
  let ops : List (Op Int32) := [.enqueue 5 0, .enqueue 11 0, .enqueue 7 0, .enqueue 4 0,
    .enqueue 2 0, .dequeue, .enqueue 6 0, .enqueue 9 0, .dequeue, .enqueue 10 0, .dequeue, .peek]
  have hcalls : Admits step Callable #[] ops := by decide +kernel
  have hleast := (run_minFirst_iff hcalls).mp (hall ops hcalls)
  revert hleast
  decide +kernel

end InterviewQuestions.PrioQueue

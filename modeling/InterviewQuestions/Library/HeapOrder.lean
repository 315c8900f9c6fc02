import Mathlib.Order.Lattice
import Mathlib.Order.Nat
import Mathlib.Order.WithBot
import Mathlib.Logic.Equiv.Basic

/-! Heap order on the implicit binary tree of array indices. A heap is seen
through its key function, so the lemmas apply to any array representation
whose exchanges act on the keys by `Equiv.swap`. -/
namespace InterviewQuestions.Library.HeapOrder

variable {κ : Type*} [LinearOrder κ] {key key' : Nat → κ} {size c i : Nat}

def parent (i : Nat) : Nat := (i - 1) / 2

theorem parent_lt (h : 0 < i) : parent i < i := by
  unfold parent
  omega

theorem parent_left (i : Nat) : parent (2 * i + 1) = i := by
  unfold parent
  omega

theorem parent_right (i : Nat) : parent (2 * i + 2) = i := by
  unfold parent
  omega

theorem child_cases (hi : 0 < i) (h : parent i = c) : i = 2 * c + 1 ∨ i = 2 * c + 2 := by
  unfold parent at h
  omega

/-- No node below `size` has a smaller key than its parent. -/
def Ordered (key : Nat → κ) (size : Nat) : Prop :=
  ∀ i, 0 < i → i < size → key (parent i) ≤ key i

/-- Heap order up to the edge entering `c`: the state of an upward sift. -/
structure OrderedButAbove (key : Nat → κ) (size c : Nat) : Prop where
  edge : ∀ i, 0 < i → i < size → i ≠ c → key (parent i) ≤ key i
  skip : ∀ i, 0 < i → i < size → parent i = c → 0 < c → key (parent c) ≤ key i

/-- Heap order up to the edges leaving `c`: the state of a downward sift. -/
structure OrderedButBelow (key : Nat → κ) (size c : Nat) : Prop where
  edge : ∀ i, 0 < i → i < size → parent i ≠ c → key (parent i) ≤ key i
  skip : ∀ i, 0 < i → i < size → parent i = c → 0 < c → key (parent c) ≤ key i

theorem Ordered.root_le (h : Ordered key size) (hi : i < size) : key 0 ≤ key i := by
  induction i using Nat.strongRecOn with
  | _ i ih =>
    rcases Nat.eq_zero_or_pos i with rfl | hpos
    · exact le_rfl
    · have hlt := parent_lt hpos
      exact (ih (parent i) hlt (hlt.trans hi)).trans (h i hpos hi)

/-- An element appended to a heap is where an upward sift starts. -/
theorem Ordered.push (h : Ordered key size) (hkey : ∀ i < size, key' i = key i) :
    OrderedButAbove key' (size + 1) size where
  edge i hpos hi hne := by
    have hlt : i < size := by omega
    rw [hkey i hlt, hkey _ ((parent_lt hpos).trans hlt)]
    exact h i hpos hlt
  skip i hpos hi hp _ := by
    have := parent_lt hpos
    omega

/-- Replacing the root and dropping the last element leaves a downward sift from the root. -/
theorem Ordered.replaceRoot (h : Ordered key size) {size' : Nat} (hsize : size' ≤ size)
    (hkey : ∀ i, 0 < i → i < size' → key' i = key i) :
    OrderedButBelow key' size' 0 where
  edge i hpos hi hne := by
    have hlt := parent_lt hpos
    rw [hkey i hpos hi, hkey _ (Nat.pos_of_ne_zero hne) (hlt.trans hi)]
    exact h i hpos (hi.trans_le hsize)
  skip i _ _ _ h0 := absurd h0 (lt_irrefl 0)

/-- Increasing the key of `c` can only break the edges below it. -/
theorem Ordered.increase (h : Ordered key size) (hc : c < size)
    (hkey : ∀ i, i ≠ c → key' i = key i) (hle : key c ≤ key' c) :
    OrderedButBelow key' size c where
  edge i hpos hi hne := by
    rw [hkey _ hne]
    by_cases hic : i = c
    · subst hic
      exact (h i hpos hi).trans hle
    · rw [hkey i hic]
      exact h i hpos hi
  skip i hpos hi hp hc0 := by
    have hci : i ≠ c := by
      have := parent_lt hpos
      omega
    rw [hkey i hci, hkey _ (parent_lt hc0).ne]
    have hedge := h i hpos hi
    rw [hp] at hedge
    exact (h c hc0 hc).trans hedge

theorem OrderedButAbove.done (h : OrderedButAbove key size c)
    (hc : 0 < c → key (parent c) ≤ key c) : Ordered key size := by
  intro i hpos hi
  by_cases hic : i = c
  · subst hic
    exact hc hpos
  · exact h.edge i hpos hi hic

/-- One exchange of an upward sift moves the doubtful edge to the parent. -/
theorem OrderedButAbove.swap (h : OrderedButAbove key size c) (hc : 0 < c) (hsize : c < size)
    (hlt : key c < key (parent c)) :
    OrderedButAbove (key ∘ Equiv.swap c (parent c)) size (parent c) where
  edge i hpos hi hne := by
    have hpc := parent_lt hc
    have hpi := parent_lt hpos
    simp only [Function.comp_apply]
    by_cases hic : i = c
    · subst hic
      rw [Equiv.swap_apply_left, Equiv.swap_apply_right]
      exact hlt.le
    · rw [Equiv.swap_apply_of_ne_of_ne hic hne]
      by_cases hpic : parent i = c
      · rw [hpic, Equiv.swap_apply_left]
        exact h.skip i hpos hi hpic hc
      · by_cases hpip : parent i = parent c
        · rw [hpip, Equiv.swap_apply_right]
          have hedge := h.edge i hpos hi hic
          rw [hpip] at hedge
          exact hlt.le.trans hedge
        · rw [Equiv.swap_apply_of_ne_of_ne hpic hpip]
          exact h.edge i hpos hi hic
  skip i hpos hi hp hp0 := by
    have hpc := parent_lt hc
    have hpp := parent_lt hp0
    simp only [Function.comp_apply]
    rw [Equiv.swap_apply_of_ne_of_ne (by omega) (by omega)]
    have hgrand := h.edge (parent c) hp0 (hpc.trans hsize) hpc.ne
    by_cases hic : i = c
    · subst hic
      rwa [Equiv.swap_apply_left]
    · have hip : i ≠ parent c := by
        have := parent_lt hpos
        omega
      rw [Equiv.swap_apply_of_ne_of_ne hic hip]
      have hedge := h.edge i hpos hi hic
      rw [hp] at hedge
      exact hgrand.trans hedge

/-- An exchange of an upward sift with a slot other than the parent. The key that comes
down has to fit between the parent and the children it gets. -/
theorem OrderedButAbove.swapAside (h : OrderedButAbove key size c) {t : Nat} (hc : c < size)
    (htc : t < c) (hne : parent c ≠ t) (hlt : key c < key t) (hup : key (parent c) ≤ key t)
    (hdown : ∀ i, 0 < i → i < size → parent i = c → key t ≤ key i) :
    OrderedButAbove (key ∘ Equiv.swap c t) size t where
  edge i hpos hi hit := by
    have hpi := parent_lt hpos
    simp only [Function.comp_apply]
    by_cases hic : i = c
    · subst hic
      rw [Equiv.swap_apply_left, Equiv.swap_apply_of_ne_of_ne hpi.ne hne]
      exact hup
    · rw [Equiv.swap_apply_of_ne_of_ne hic hit]
      by_cases hpc : parent i = c
      · rw [hpc, Equiv.swap_apply_left]
        exact hdown i hpos hi hpc
      · have hedge := h.edge i hpos hi hic
        by_cases hpt : parent i = t
        · rw [hpt, Equiv.swap_apply_right]
          rw [hpt] at hedge
          exact hlt.le.trans hedge
        · rwa [Equiv.swap_apply_of_ne_of_ne hpc hpt]
  skip i hpos hi hp ht := by
    have hpt := parent_lt ht
    have hti : t < i := hp ▸ parent_lt hpos
    have hic : i ≠ c := fun hic => hne (hic ▸ hp)
    simp only [Function.comp_apply]
    rw [Equiv.swap_apply_of_ne_of_ne (by omega) (by omega),
      Equiv.swap_apply_of_ne_of_ne hic hti.ne']
    have hgrand := h.edge t ht (htc.trans hc) htc.ne
    have hedge := h.edge i hpos hi hic
    rw [hp] at hedge
    exact hgrand.trans hedge

/-- Two exchanges in a row, with a sibling of the parent and then with the parent. -/
theorem OrderedButAbove.swapRound (h : OrderedButAbove key size c) {t : Nat} (hc : c < size)
    (hpos : 0 < parent c) (htc : t < c) (hpt : parent c < t) (hsib : parent t = parent (parent c))
    (hlt : key c < key t) (hlt' : key c < key (parent c))
    (hdown : ∀ i, 0 < i → i < size → parent i = c → key t ≤ key i)
    (haside : ∀ i, 0 < i → i < size → parent i = t → key (parent c) ≤ key i) :
    OrderedButAbove ((key ∘ Equiv.swap c t) ∘ Equiv.swap t (parent c)) size (parent c) := by
  have hkey : ∀ i, ((key ∘ Equiv.swap c t) ∘ Equiv.swap t (parent c)) i =
      if i = c then key t else if i = t then key (parent c) else
        if i = parent c then key c else key i := by
    intro i
    simp only [Function.comp_apply, Equiv.swap_apply_def]
    split_ifs <;> first | rfl | omega
  have hgrand := h.edge (parent c) hpos (hpt.trans (htc.trans hc)) (hpt.trans htc).ne
  have hpp := parent_lt hpos
  constructor
  · intro i hi0 hi hne
    have hpi := parent_lt hi0
    rw [hkey, hkey]
    by_cases hic : i = c
    · subst hic
      rw [if_neg hpi.ne, if_neg hpt.ne, if_pos rfl, if_pos rfl]
      exact hlt.le
    rw [if_neg hic]
    by_cases hit : i = t
    · subst hit
      rw [if_pos rfl, if_neg (by omega), if_neg hpi.ne, if_neg (by omega), hsib]
      exact hgrand
    rw [if_neg hit, if_neg hne]
    by_cases hpc : parent i = c
    · rw [if_pos hpc]
      exact hdown i hi0 hi hpc
    rw [if_neg hpc]
    by_cases hpit : parent i = t
    · rw [if_pos hpit]
      exact haside i hi0 hi hpit
    rw [if_neg hpit]
    have hedge := h.edge i hi0 hi hic
    by_cases hpip : parent i = parent c
    · rw [if_pos hpip]
      rw [hpip] at hedge
      exact hlt'.le.trans hedge
    · rwa [if_neg hpip]
  · intro i hi0 hi hp _
    have hpi := parent_lt hi0
    rw [hkey, hkey, if_neg (by omega), if_neg (by omega), if_neg hpp.ne]
    by_cases hic : i = c
    · rw [if_pos hic, ← hsib]
      exact h.edge t (hpos.trans hpt) (htc.trans hc) htc.ne
    · have hit : i ≠ t := by
        rintro rfl
        omega
      rw [if_neg hic, if_neg hit, if_neg (by omega)]
      have hedge := h.edge i hi0 hi hic
      rw [hp] at hedge
      exact hgrand.trans hedge

theorem OrderedButBelow.done (h : OrderedButBelow key size c)
    (hc : ∀ i, 0 < i → i < size → parent i = c → key c ≤ key i) : Ordered key size := by
  intro i hpos hi
  by_cases hp : parent i = c
  · rw [hp]
    exact hc i hpos hi hp
  · exact h.edge i hpos hi hp

/-- One exchange of a downward sift with the least child moves the doubtful edges to it. -/
theorem OrderedButBelow.swap (h : OrderedButBelow key size c) {s : Nat} (hs : 0 < s)
    (hsize : s < size) (hp : parent s = c) (hle : key s ≤ key c)
    (hleast : ∀ i, 0 < i → i < size → parent i = c → key s ≤ key i) :
    OrderedButBelow (key ∘ Equiv.swap c s) size s where
  edge i hpos hi hne := by
    have hcs : c < s := hp ▸ parent_lt hs
    simp only [Function.comp_apply]
    by_cases his : i = s
    · subst his
      rw [hp, Equiv.swap_apply_left, Equiv.swap_apply_right]
      exact hle
    · by_cases hic : i = c
      · subst hic
        rw [Equiv.swap_apply_left, Equiv.swap_apply_of_ne_of_ne (parent_lt hpos).ne hne]
        exact h.skip s hs hsize hp hpos
      · rw [Equiv.swap_apply_of_ne_of_ne hic his]
        by_cases hpi : parent i = c
        · rw [hpi, Equiv.swap_apply_left]
          exact hleast i hpos hi hpi
        · rw [Equiv.swap_apply_of_ne_of_ne hpi hne]
          exact h.edge i hpos hi hpi
  skip i hpos hi hpi _ := by
    have hcs : c < s := hp ▸ parent_lt hs
    have hsi : s < i := hpi ▸ parent_lt hpos
    simp only [Function.comp_apply]
    rw [hp, Equiv.swap_apply_left, Equiv.swap_apply_of_ne_of_ne (by omega) (by omega)]
    have hedge := h.edge i hpos hi (by omega)
    rwa [hpi] at hedge

/-! ## A heap from below -/

/-- The keys below `low` count as least, and nothing is asked of the edges that leave them. -/
def masked (low : Nat) (key : Nat → κ) (i : Nat) : WithBot κ := if i < low then ⊥ else key i

omit [LinearOrder κ] in
theorem masked_zero (key : Nat → κ) (i : Nat) : masked 0 key i = key i := rfl

omit [LinearOrder κ] in
theorem masked_of_le {low : Nat} (h : low ≤ i) : masked low key i = key i :=
  if_neg (Nat.not_lt.mpr h)

omit [LinearOrder κ] in
theorem masked_of_lt {low : Nat} (h : i < low) : masked low key i = ⊥ := if_pos h

omit [LinearOrder κ] in
theorem masked_swap {low a b : Nat} (ha : low ≤ a) (hb : low ≤ b) :
    masked low (key ∘ Equiv.swap a b) = masked low key ∘ Equiv.swap a b := by
  funext i
  rw [Function.comp_apply]
  by_cases hi : i < low
  · rw [Equiv.swap_apply_of_ne_of_ne (by omega) (by omega), masked_of_lt hi, masked_of_lt hi]
  · rw [masked_of_le (Nat.not_lt.mp hi), Function.comp_apply]
    by_cases hia : i = a
    · rw [hia, Equiv.swap_apply_left, masked_of_le hb]
    · by_cases hib : i = b
      · rw [hib, Equiv.swap_apply_right, masked_of_le ha]
      · rw [Equiv.swap_apply_of_ne_of_ne hia hib, masked_of_le (Nat.not_lt.mp hi)]

/-- The leaves alone are in heap order. -/
theorem ordered_leaves {low : Nat} (h : ∀ i, 0 < i → i < size → parent i < low) :
    Ordered (masked low key) size := by
  intro i hpos hi
  rw [masked_of_lt (h i hpos hi)]
  exact bot_le

/-- With one node more, a downward sift starts at that node. -/
theorem Ordered.extend {low : Nat} (h : Ordered (masked (low + 1) key) size) :
    OrderedButBelow (masked low key) size low where
  edge i hpos hi hne := by
    by_cases hlow : parent i < low
    · rw [masked_of_lt hlow]
      exact bot_le
    · have hlt := parent_lt hpos
      have hedge := h i hpos hi
      rwa [masked_of_le (by omega), masked_of_le (by omega)] at hedge ⊢
  skip i _ _ _ hlow := by
    rw [masked_of_lt (parent_lt hlow)]
    exact bot_le

theorem ordered_masked_zero : Ordered (masked 0 key) size ↔ Ordered key size := by
  unfold Ordered
  simp only [masked_zero, WithBot.coe_le_coe]

end InterviewQuestions.Library.HeapOrder

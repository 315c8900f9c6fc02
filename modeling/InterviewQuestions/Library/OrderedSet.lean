import Mathlib.Order.Lattice

/-! `std::set` as the list of its elements in their order. Two elements are the same when neither
is less than the other. -/
namespace InterviewQuestions.Library.OrderedSet

variable {α κ : Type*}

def insert (less : α → α → Bool) (x : α) : List α → List α
  | [] => [x]
  | y :: q =>
      if less x y then x :: y :: q
      else if less y x then y :: insert less x q
      else y :: q

def find (less : α → α → Bool) (x : α) : List α → Option α
  | [] => none
  | y :: q =>
      if less y x then find less x q
      else if less x y then none
      else some y

variable [LinearOrder κ] {key : α → κ} {less : α → α → Bool} {x y : α} {q : List α}

/-- The elements are in the strict order of their keys. -/
def Sorted (key : α → κ) (q : List α) : Prop := q.Pairwise fun a b => key a < key b

theorem Sorted.nodup (hq : Sorted key q) : q.Nodup := by
  unfold Sorted at hq
  refine hq.imp fun {a b} hlt heq => ?_
  rw [heq] at hlt
  exact lt_irrefl _ hlt

theorem Sorted.congr {key' : α → κ} (hq : Sorted key q) (hkey : ∀ a ∈ q, key' a = key a) :
    Sorted key' q := by
  unfold Sorted at hq ⊢
  refine List.Pairwise.imp_of_mem (fun {a b} ha hb hlt => ?_) hq
  rw [hkey a ha, hkey b hb]
  exact hlt

section
variable (hless : ∀ a b, less a b = true ↔ key a < key b) (hkey : ∀ a b, key a = key b → a = b)

include hless hkey

theorem insert_perm (hx : x ∉ q) : (insert less x q).Perm (x :: q) := by
  induction q with
  | nil => exact List.Perm.refl _
  | cons y q ih =>
    obtain ⟨hne, hxq⟩ := List.ne_and_not_mem_of_not_mem_cons hx
    unfold insert
    split_ifs with hxy hyx
    · exact List.Perm.refl _
    · exact ((ih hxq).cons y).trans (List.Perm.swap x y q)
    · rw [hless, not_lt] at hxy hyx
      exact absurd (hkey x y (le_antisymm hyx hxy)) hne

theorem mem_insert : y ∈ insert less x q ↔ y = x ∨ y ∈ q := by
  by_cases hx : x ∈ q
  · induction q with
    | nil => exact absurd hx List.not_mem_nil
    | cons z q ih =>
      unfold insert
      split_ifs with hxz hzx
      · rw [List.mem_cons]
      · have hne : x ≠ z := fun heq => by
          rw [hless, heq] at hzx
          exact lt_irrefl _ hzx
        rw [List.mem_cons, ih (List.mem_of_ne_of_mem hne hx), List.mem_cons, or_left_comm]
      · rw [hless, not_lt] at hxz hzx
        rw [hkey x z (le_antisymm hzx hxz), List.mem_cons, or_self_left]
  · rw [(insert_perm hless hkey hx).mem_iff, List.mem_cons]

theorem sorted_insert (hq : Sorted key q) : Sorted key (insert less x q) := by
  unfold Sorted at hq ⊢
  induction q with
  | nil => exact List.pairwise_singleton _ _
  | cons y q ih =>
    obtain ⟨hy, htail⟩ := List.pairwise_cons.mp hq
    unfold insert
    split_ifs with hxy hyx
    · rw [hless] at hxy
      refine List.pairwise_cons.mpr ⟨fun z hz => ?_, hq⟩
      cases List.mem_cons.mp hz with
      | inl heq => rw [heq]; exact hxy
      | inr hz => exact lt_trans hxy (hy z hz)
    · rw [hless] at hyx
      refine List.pairwise_cons.mpr ⟨fun z hz => ?_, ih htail⟩
      cases (mem_insert hless hkey).mp hz with
      | inl heq => rw [heq]; exact hyx
      | inr hz => exact hy z hz
    · exact hq

/-- An element is found where it is in the set. -/
theorem find_eq [DecidableEq α] (hq : Sorted key q) :
    find less x q = if x ∈ q then some x else none := by
  unfold Sorted at hq
  induction q with
  | nil => rfl
  | cons y q ih =>
    obtain ⟨hy, htail⟩ := List.pairwise_cons.mp hq
    unfold find
    split_ifs with hyx hmem hxy hmem hmem
    · rw [ih htail, if_pos (List.mem_of_ne_of_mem (fun heq => ?_) hmem)]
      rw [hless, heq] at hyx
      exact lt_irrefl _ hyx
    · rw [ih htail, if_neg (List.not_mem_of_not_mem_cons hmem)]
    · rw [hless] at hxy
      cases List.mem_cons.mp hmem with
      | inl heq => rw [heq] at hxy; exact absurd hxy (lt_irrefl _)
      | inr hx => exact absurd (lt_trans hxy (hy x hx)) (lt_irrefl _)
    · rfl
    all_goals
      rw [hless, not_lt] at hxy hyx
      have heq := hkey x y (le_antisymm hyx hxy)
    · rw [heq]
    · exact absurd (heq ▸ List.mem_cons_self) hmem

end

end InterviewQuestions.Library.OrderedSet

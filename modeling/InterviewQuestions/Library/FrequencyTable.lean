import Mathlib.Data.Fintype.Card
import Mathlib.Data.Fintype.Basic
import Mathlib.Data.List.Count
import Mathlib.Tactic.Common

/-! Tables of how often values occur. Two tables are the same where they agree in as many of the
values that occur as each of them has. -/
namespace InterviewQuestions.Library.FrequencyTable

open Function

variable {α : Type*} [DecidableEq α]

/-- How often the values occur in a list. -/
def table (l : List α) : α → ℕ := fun x => l.count x

theorem table_cons (c : α) (l : List α) :
    table (c :: l) = update (table l) c (table l c + 1) := by
  funext x
  by_cases hx : x = c
  · rw [hx, update_self]
    exact List.count_cons_self
  · rw [update_of_ne hx]
    exact List.count_cons_of_ne (Ne.symm hx)

theorem table_eq_iff {l l' : List α} : table l = table l' ↔ l.Perm l' :=
  funext_iff.trans List.perm_iff_count.symm

theorem table_congr {l l' : List α} (h : l.Perm l') : table l = table l' := table_eq_iff.mpr h

/-- Taking a value away. -/
theorem table_of_cons (c : α) (l : List α) :
    table l = update (table (c :: l)) c (table (c :: l) c - 1) := by
  rw [table_cons, update_self, Nat.add_sub_cancel, update_idem, update_eq_self]

variable [Fintype α] {f g : α → ℕ}

/-- How many values occur. -/
def filled (f : α → ℕ) : ℕ := (Finset.univ.filter fun x => f x ≠ 0).card

/-- In how many of the values that occur two tables agree. -/
def matching (f g : α → ℕ) : ℕ := (Finset.univ.filter fun x => f x = g x ∧ f x ≠ 0).card

/-- A count where only one value changes. -/
theorem card_filter_update (p p' : α → Prop) [DecidablePred p] [DecidablePred p'] (c : α)
    (h : ∀ x, x ≠ c → (p' x ↔ p x)) :
    (Finset.univ.filter p').card + (if p c then 1 else 0) =
      (Finset.univ.filter p).card + (if p' c then 1 else 0) := by
  have hsplit (q : α → Prop) [DecidablePred q] : (Finset.univ.filter q).card =
      ((Finset.univ.erase c).filter q).card + (if q c then 1 else 0) := by
    rw [← Finset.insert_erase (Finset.mem_univ c), Finset.erase_insert (Finset.notMem_erase c _),
      Finset.filter_insert]
    split
    · rw [Finset.card_insert_of_notMem]
      exact fun hmem => Finset.notMem_erase c _ (Finset.mem_filter.mp hmem).1
    · rfl
  have hcongr : (Finset.univ.erase c).filter p' = (Finset.univ.erase c).filter p :=
    Finset.filter_congr fun x hx => h x (Finset.mem_erase.mp hx).1
  rw [hsplit p, hsplit p', hcongr]
  omega

theorem filled_update (f : α → ℕ) (c : α) (n : ℕ) :
    filled (update f c n) + (if f c ≠ 0 then 1 else 0) = filled f + (if n ≠ 0 then 1 else 0) := by
  have hcard := card_filter_update (fun x => f x ≠ 0) (fun x => update f c n x ≠ 0) c
    fun x hx => by rw [update_of_ne hx]
  rwa [update_self] at hcard

theorem matching_update (f g : α → ℕ) (c : α) (n : ℕ) :
    matching (update f c n) g + (if f c = g c ∧ f c ≠ 0 then 1 else 0) =
      matching f g + (if n = g c ∧ n ≠ 0 then 1 else 0) := by
  have hcard := card_filter_update (fun x => f x = g x ∧ f x ≠ 0)
    (fun x => update f c n x = g x ∧ update f c n x ≠ 0) c fun x hx => by rw [update_of_ne hx]
  rwa [update_self] at hcard

omit [DecidableEq α] in
/-- The numbers tell whether the tables are the same. -/
theorem eq_iff : f = g ↔ matching f g = filled g ∧ filled f = filled g := by
  constructor
  · rintro rfl
    refine ⟨?_, rfl⟩
    rw [matching, filled]
    simp only [true_and]
  · rintro ⟨hmatching, hfilled⟩
    have hsub : (Finset.univ.filter fun x => f x = g x ∧ f x ≠ 0) ⊆
        Finset.univ.filter fun x => f x ≠ 0 :=
      Finset.monotone_filter_right _ fun x _ hx => hx.2
    have hsub' : (Finset.univ.filter fun x => f x = g x ∧ f x ≠ 0) ⊆
        Finset.univ.filter fun x => g x ≠ 0 :=
      Finset.monotone_filter_right _ fun x _ hx => hx.1 ▸ hx.2
    have heq := Finset.eq_of_subset_of_card_le hsub (hfilled.trans hmatching.symm).le
    have heq' := Finset.eq_of_subset_of_card_le hsub' hmatching.symm.le
    funext x
    by_cases hf : f x = 0
    · by_cases hg : g x = 0
      · rw [hf, hg]
      · have hmem : x ∈ Finset.univ.filter fun x => g x ≠ 0 := by simpa using hg
        rw [← heq'] at hmem
        exact (Finset.mem_filter.mp hmem).2.1
    · have hmem : x ∈ Finset.univ.filter fun x => f x ≠ 0 := by simpa using hf
      rw [← heq] at hmem
      exact (Finset.mem_filter.mp hmem).2.1

end InterviewQuestions.Library.FrequencyTable

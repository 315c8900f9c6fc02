import Mathlib.Algebra.BigOperators.Fin
import Mathlib.Algebra.Order.BigOperators.Group.Finset
import Mathlib.Data.Fintype.BigOperators
import Mathlib.Order.WellFounded

/-! Threads that each stand at a place of their code: who holds a mutex, and sums over
the places. -/
namespace InterviewQuestions.Library.Threads

variable {Tid Place : Type*} {pc : Tid → Place} {t u : Tid} {p : Place}

/-- A thread at a place where no thread has just moved was there before. -/
theorem stood [DecidableEq Tid] {q : Place} (hu : Function.update pc t p u = q) (hp : p ≠ q) :
    pc u = q := by
  by_cases hut : u = t
  · rw [hut, Function.update_self] at hu
    exact absurd hu hp
  · rwa [Function.update_of_ne hut] at hu

/-! ## Ownership -/

/-- The threads at a place where `holds` are those that own the mutex. -/
def Owned (holds : Place → Bool) (pc : Tid → Place) (mutex : Option Tid) : Prop :=
  ∀ t, holds (pc t) = true ↔ mutex = some t

variable {holds : Place → Bool} {mutex : Option Tid}

theorem Owned.free (h : Owned holds pc none) : holds (pc t) = false := by
  rw [Bool.eq_false_iff]
  intro hheld
  cases (h t).mp hheld

theorem Owned.only (h : Owned holds pc mutex) (ht : holds (pc t) = true) (hu : u ≠ t) :
    holds (pc u) = false := by
  rw [Bool.eq_false_iff]
  intro hheld
  have howner := (h t).mp ht
  rw [(h u).mp hheld] at howner
  exact hu (Option.some.inj howner)

theorem Owned.unique (h : Owned holds pc mutex) (ht : holds (pc t) = true)
    (hu : holds (pc u) = true) : u = t := by
  by_contra hne
  rw [h.only ht hne] at hu
  cases hu

theorem owned_init {p : Place} (hp : holds p = false) :
    Owned holds (fun _ : Tid => p) none := by
  intro t
  rw [hp]
  simp

variable [DecidableEq Tid]

theorem Owned.goto (h : Owned holds pc mutex) (hp : holds p = holds (pc t)) :
    Owned holds (Function.update pc t p) mutex := by
  intro u
  by_cases hu : u = t
  · rw [hu, Function.update_self, hp]
    exact h t
  · rw [Function.update_of_ne hu]
    exact h u

theorem Owned.lock (h : Owned holds pc none) (hp : holds p = true) :
    Owned holds (Function.update pc t p) (some t) := by
  intro u
  by_cases hu : u = t
  · rw [hu, Function.update_self]
    exact iff_of_true hp rfl
  · rw [Function.update_of_ne hu, h.free]
    simp [Ne.symm hu]

theorem Owned.unlock (h : Owned holds pc mutex) (ht : holds (pc t) = true)
    (hp : holds p = false) : Owned holds (Function.update pc t p) none := by
  intro u
  by_cases hu : u = t
  · rw [hu, Function.update_self, hp]
    simp
  · rw [Function.update_of_ne hu, h.only ht hu]
    simp

omit [DecidableEq Tid]

/-! ## Sums -/

variable [Fintype Tid] {weight weight' : Place → ℕ}

/-- The weights of the places where the threads stand. -/
def tally (weight : Place → ℕ) (pc : Tid → Place) : ℕ := ∑ t, weight (pc t)

theorem le_tally (weight : Place → ℕ) (pc : Tid → Place) (t : Tid) :
    weight (pc t) ≤ tally weight pc :=
  Finset.single_le_sum (f := fun u => weight (pc u)) (fun _ _ => Nat.zero_le _)
    (Finset.mem_univ t)

@[simp] theorem tally_const (weight : Place → ℕ) (p : Place) :
    tally weight (fun _ : Tid => p) = Fintype.card Tid * weight p := by
  simp [tally]

theorem tally_le_card (h : ∀ t, weight (pc t) ≤ 1) : tally weight pc ≤ Fintype.card Tid := by
  have hsum := Finset.sum_le_card_nsmul Finset.univ (fun t => weight (pc t)) 1 fun t _ => h t
  simpa [tally] using hsum

theorem tally_lt {bound : ℕ} (h : ∀ u, weight (pc u) ≤ bound) (ht : weight (pc t) < bound) :
    tally weight pc < Fintype.card Tid * bound := by
  have hcount : Fintype.card Tid * bound = ∑ _u : Tid, bound := by simp
  rw [hcount]
  exact Finset.sum_lt_sum (fun u _ => h u) ⟨t, Finset.mem_univ t, ht⟩

/-- Weights of at most one that add up to the number of threads are all one. -/
theorem weight_eq_one (h : ∀ t, weight (pc t) ≤ 1) (hcard : Fintype.card Tid ≤ tally weight pc)
    (t : Tid) : weight (pc t) = 1 := by
  by_contra hne
  have hlt := tally_lt h (lt_of_le_of_ne (h t) hne)
  rw [Nat.mul_one] at hlt
  exact absurd hcard (not_le_of_gt hlt)

theorem tally_eq_zero (h : ∀ t, weight (pc t) = 0) : tally weight pc = 0 :=
  Finset.sum_eq_zero fun t _ => h t

variable [DecidableEq Tid]

theorem tally_update (weight : Place → ℕ) (pc : Tid → Place) (t : Tid) (p : Place) :
    tally weight (Function.update pc t p) + weight (pc t) = tally weight pc + weight p := by
  have hsplit : ∀ f : Tid → Place,
      tally weight f = weight (f t) + ∑ u ∈ Finset.univ.erase t, weight (f u) := fun f =>
    (Finset.add_sum_erase Finset.univ (fun u => weight (f u)) (Finset.mem_univ t)).symm
  have hrest : ∑ u ∈ Finset.univ.erase t, weight (Function.update pc t p u) =
      ∑ u ∈ Finset.univ.erase t, weight (pc u) :=
    Finset.sum_congr rfl fun u hu => by rw [Function.update_of_ne (Finset.ne_of_mem_erase hu)]
  rw [hsplit (Function.update pc t p), hsplit pc, Function.update_self, hrest]
  omega

end InterviewQuestions.Library.Threads

/-! Locks taken in ascending order: some thread that holds or wants one can go on. -/
namespace InterviewQuestions.Library.LockOrder

variable {Tid Lock : Type*} [LT Lock] [WellFoundedGT Lock]

/-- The holder of a lock, or the holder of the lock that it waits for, and so on upwards. -/
theorem holder_proceeds {holder : Lock → Option Tid} {wants : Tid → Option Lock}
    (hordered : ∀ t b c, holder b = some t → wants t = some c → b < c) (b : Lock) :
    ∀ t, holder b = some t →
      ∃ u, (∃ c, holder c = some u) ∧ ∀ c, wants u = some c → holder c = none := by
  induction b using WellFoundedGT.induction with
  | ind b ih =>
    intro t ht
    by_cases hfree : ∀ c, wants t = some c → holder c = none
    · exact ⟨t, ⟨b, ht⟩, hfree⟩
    · simp only [not_forall] at hfree
      obtain ⟨c, hwants, hheld⟩ := hfree
      obtain ⟨u, hu⟩ := Option.ne_none_iff_exists'.mp hheld
      exact ih c (hordered t b c ht hwants) u hu

/-- A thread can go on, or one that holds a lock can. -/
theorem exists_proceeds {holder : Lock → Option Tid} {wants : Tid → Option Lock}
    (hordered : ∀ t b c, holder b = some t → wants t = some c → b < c) (t : Tid) :
    ∃ u, (u = t ∨ ∃ c, holder c = some u) ∧ ∀ c, wants u = some c → holder c = none := by
  by_cases hfree : ∀ c, wants t = some c → holder c = none
  · exact ⟨t, Or.inl rfl, hfree⟩
  · simp only [not_forall] at hfree
    obtain ⟨c, hwants, hheld⟩ := hfree
    obtain ⟨u, hu⟩ := Option.ne_none_iff_exists'.mp hheld
    obtain ⟨v, hholds, hproceeds⟩ := holder_proceeds hordered c u hu
    exact ⟨v, Or.inr hholds, hproceeds⟩

end InterviewQuestions.Library.LockOrder

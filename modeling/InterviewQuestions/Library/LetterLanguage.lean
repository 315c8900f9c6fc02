import Mathlib.Computability.Language

/-! Languages that begin with one letter, or with any number of letters, of a kind. -/
namespace InterviewQuestions.Library.LetterLanguage

open scoped Computability

variable {α : Type*} {p : α → Prop} {L : Language α} {a : α} {w : List α}

/-- The words of one such letter. -/
def letter (p : α → Prop) : Language α := {w | ∃ a, w = [a] ∧ p a}

theorem nil_notMem_letter_mul : [] ∉ letter p * L := by
  rw [Language.mem_mul]
  rintro ⟨u, ⟨a, rfl, -⟩, v, -, h⟩
  cases h

theorem cons_mem_letter_mul : a :: w ∈ letter p * L ↔ p a ∧ w ∈ L := by
  rw [Language.mem_mul]
  constructor
  · rintro ⟨u, ⟨b, rfl, hb⟩, v, hv, h⟩
    cases h
    exact ⟨hb, hv⟩
  · rintro ⟨ha, hw⟩
    exact ⟨[a], ⟨a, rfl, ha⟩, w, hw, rfl⟩

/-- Without letters, or with one and then others. -/
theorem mem_kstar_mul : w ∈ (letter p)∗ * L ↔ w ∈ L ∨ w ∈ letter p * ((letter p)∗ * L) := by
  rw [← mul_assoc, ← Language.mem_add, ← Language.one_add_self_mul_kstar_eq_kstar (letter p),
    add_mul, one_mul, Language.one_add_self_mul_kstar_eq_kstar]

theorem nil_mem_kstar_mul : [] ∈ (letter p)∗ * L ↔ [] ∈ L := by
  rw [mem_kstar_mul, or_iff_left nil_notMem_letter_mul]

theorem cons_mem_kstar_mul :
    a :: w ∈ (letter p)∗ * L ↔ a :: w ∈ L ∨ p a ∧ w ∈ (letter p)∗ * L := by
  rw [mem_kstar_mul, cons_mem_letter_mul]

end InterviewQuestions.Library.LetterLanguage

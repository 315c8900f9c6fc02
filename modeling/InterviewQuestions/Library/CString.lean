import Mathlib.Data.List.TakeWhile

/-! The strings of C: bytes up to a `NUL`. -/
namespace InterviewQuestions.Library

/-- A string, without the `NUL` that ends it in memory. -/
structure CString where
  bytes : List UInt8
  no_nul : 0 ∉ bytes

namespace CString

@[ext] theorem ext {s t : CString} (h : s.bytes = t.bytes) : s = t := by
  cases s
  cases t
  cases h
  rfl

instance instDecidableEq : DecidableEq CString := fun s t =>
  decidable_of_iff (s.bytes = t.bytes) ⟨ext, congrArg bytes⟩

def empty : CString := ⟨[], List.not_mem_nil⟩

def append (s t : CString) : CString :=
  ⟨s.bytes ++ t.bytes, by
    rw [List.mem_append, not_or]
    exact ⟨s.no_nul, t.no_nul⟩⟩

/-- `strlen` -/
def length (s : CString) : ℕ := s.bytes.length

/-- The string at the start of a buffer. -/
def ofBuffer (buffer : List UInt8) : CString where
  bytes := buffer.takeWhile (· ≠ 0)
  no_nul h := by simpa using List.mem_takeWhile_imp h

theorem takeWhile_nul {s rest : List UInt8} (hs : 0 ∉ s) :
    (s ++ 0 :: rest).takeWhile (· ≠ 0) = s := by
  rw [List.takeWhile_append_of_pos]
  · simp
  · intro b hb
    simp only [ne_eq, decide_not, Bool.not_eq_eq_eq_not, Bool.not_true, decide_eq_false_iff_not]
    intro hzero
    rw [hzero] at hb
    exact hs hb

theorem bytes_ofBuffer {s : List UInt8} (hs : 0 ∉ s) (rest : List UInt8) :
    (ofBuffer (s ++ 0 :: rest)).bytes = s :=
  takeWhile_nul hs

end CString

end InterviewQuestions.Library

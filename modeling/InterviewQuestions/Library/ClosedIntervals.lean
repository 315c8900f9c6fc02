import Mathlib.Data.Set.Basic
import Mathlib.Order.Interval.Set.Defs
import Mathlib.Order.Monotone.Basic
import Mathlib.Tactic.Common

/-! Lists of closed intervals, each of which ends before the next one starts. -/
namespace InterviewQuestions.Library

@[ext]
structure Interval (α : Type*) where
  start : α
  stop : α
deriving DecidableEq, Repr

namespace Interval

variable {α β : Type*} [LinearOrder β] {f : α → β}
variable {l left stretch right : List (Interval α)} {new joined : Interval α}

/-- The points between the ends, which are found among them by `f`. -/
def covered (f : α → β) (l : List (Interval α)) : Set β :=
  {t | ∃ i ∈ l, f i.start ≤ t ∧ t ≤ f i.stop}

theorem covered_append : covered f (left ++ right) = covered f left ∪ covered f right := by
  ext t
  constructor
  · rintro ⟨i, hi, ht⟩
    exact (List.mem_append.mp hi).imp (fun hi => ⟨i, hi, ht⟩) fun hi => ⟨i, hi, ht⟩
  · rintro (⟨i, hi, ht⟩ | ⟨i, hi, ht⟩)
    · exact ⟨i, List.mem_append_left _ hi, ht⟩
    · exact ⟨i, List.mem_append_right _ hi, ht⟩

theorem covered_singleton (i : Interval α) : covered f [i] = Set.Icc (f i.start) (f i.stop) := by
  ext t
  simp [covered]

variable [LinearOrder α]

structure Apart (l : List (Interval α)) : Prop where
  order : ∀ i ∈ l, i.start ≤ i.stop
  pairwise : l.Pairwise fun i j => i.stop < j.start

theorem apart_append : Apart (left ++ right) ↔
    Apart left ∧ Apart right ∧ ∀ i ∈ left, ∀ j ∈ right, i.stop < j.start := by
  constructor
  · rintro ⟨horder, hpairwise⟩
    obtain ⟨hleft, hright, hcross⟩ := List.pairwise_append.mp hpairwise
    exact ⟨⟨fun i hi => horder i (List.mem_append_left _ hi), hleft⟩,
      ⟨fun i hi => horder i (List.mem_append_right _ hi), hright⟩, hcross⟩
  · rintro ⟨hleft, hright, hcross⟩
    refine ⟨fun i hi => ?_, List.pairwise_append.mpr ⟨hleft.pairwise, hright.pairwise, hcross⟩⟩
    rcases List.mem_append.mp hi with hi | hi
    · exact hleft.order i hi
    · exact hright.order i hi

/-- Those that start at `t` or before come first. -/
theorem Apart.exists_split (h : Apart l) (t : α) :
    ∃ left right, l = left ++ right ∧ (∀ i ∈ left, i.start ≤ t) ∧ ∀ i ∈ right, t < i.start := by
  induction l with
  | nil => exact ⟨[], [], rfl, by simp, by simp⟩
  | cons i l ih =>
    by_cases hi : i.start ≤ t
    · have htail : Apart l :=
        ⟨fun j hj => h.order j (List.mem_cons_of_mem _ hj), h.pairwise.tail⟩
      obtain ⟨left, right, rfl, hleft, hright⟩ := ih htail
      refine ⟨i :: left, right, rfl, fun j hj => ?_, hright⟩
      rcases List.mem_cons.mp hj with rfl | hj
      · exact hi
      · exact hleft j hj
    · refine ⟨[], i :: l, rfl, by simp, fun j hj => ?_⟩
      rcases List.mem_cons.mp hj with rfl | hj
      · exact not_le.mp hi
      · calc t
          _ < i.start := not_le.mp hi
          _ ≤ i.stop := h.order i List.mem_cons_self
          _ < j.start := List.rel_of_pairwise_cons h.pairwise hj

/-! ## Joining -/

/-- `joined` spans the stretch and `new`, and each of its ends is an end of `new` or of an interval
that `new` meets. -/
structure Joins (stretch : List (Interval α)) (new joined : Interval α) : Prop where
  start_le : joined.start ≤ new.start
  le_stop : new.stop ≤ joined.stop
  spans : ∀ i ∈ stretch, joined.start ≤ i.start ∧ i.stop ≤ joined.stop
  start_meets : joined.start = new.start ∨
    ∃ i ∈ stretch, i.start = joined.start ∧ new.start ≤ i.stop
  stop_meets : joined.stop = new.stop ∨
    ∃ i ∈ stretch, i.stop = joined.stop ∧ i.start ≤ new.stop

theorem Joins.covered_eq (h : Joins stretch new joined) (hf : Monotone f) :
    covered f [joined] = covered f stretch ∪ covered f [new] := by
  rw [covered_singleton, covered_singleton]
  ext t
  constructor
  · rintro ⟨hstart, hstop⟩
    by_cases hlow : f new.start ≤ t
    · by_cases hhigh : t ≤ f new.stop
      · exact .inr ⟨hlow, hhigh⟩
      · rcases h.stop_meets with heq | ⟨i, hi, hstop', hmeets⟩
        · rw [heq] at hstop
          exact absurd hstop hhigh
        · rw [← hstop'] at hstop
          exact .inl ⟨i, hi, (hf hmeets).trans (not_le.mp hhigh).le, hstop⟩
    · rcases h.start_meets with heq | ⟨i, hi, hstart', hmeets⟩
      · rw [heq] at hstart
        exact absurd hstart hlow
      · rw [← hstart'] at hstart
        exact .inl ⟨i, hi, hstart, (not_le.mp hlow).le.trans (hf hmeets)⟩
  · rintro (⟨i, hi, hstart, hstop⟩ | ⟨hstart, hstop⟩)
    · exact ⟨(hf (h.spans i hi).1).trans hstart, hstop.trans (hf (h.spans i hi).2)⟩
    · exact ⟨(hf h.start_le).trans hstart, hstop.trans (hf h.le_stop)⟩

/-- The stretch is replaced by the interval that joins it with `new`. -/
theorem Joins.covered_replace (h : Joins stretch new joined) (hf : Monotone f) :
    covered f (left ++ [joined] ++ right) =
      covered f (left ++ stretch ++ right) ∪ covered f [new] := by
  rw [covered_append, covered_append, h.covered_eq hf, covered_append, covered_append]
  rw [← Set.union_assoc, Set.union_right_comm]

theorem Apart.replace (h : Apart (left ++ stretch ++ right)) (horder : joined.start ≤ joined.stop)
    (hleft : ∀ i ∈ left, i.stop < joined.start) (hright : ∀ i ∈ right, joined.stop < i.start) :
    Apart (left ++ [joined] ++ right) := by
  obtain ⟨hfront, hback, hcross⟩ := apart_append.mp h
  have hone : Apart [joined] := ⟨by simpa using horder, List.pairwise_singleton _ _⟩
  have hfirst : Apart (left ++ [joined]) :=
    apart_append.mpr ⟨(apart_append.mp hfront).1, hone, by simpa using hleft⟩
  refine apart_append.mpr ⟨hfirst, hback, fun i hi j hj => ?_⟩
  rcases List.mem_append.mp hi with hi | hi
  · exact hcross i (List.mem_append_left _ hi) j hj
  · rw [List.mem_singleton.mp hi]
    exact hright j hj

/-! ## How many there can be -/

/-- Among the integers of a range. -/
theorem Apart.length_le {l : List (Interval ℤ)} {lo hi : ℤ} (h : Apart l)
    (hlo : ∀ i ∈ l, lo ≤ i.start) (hhi : ∀ i ∈ l, i.stop ≤ hi) (hle : lo ≤ hi + 1) :
    l.length ≤ hi - lo + 1 := by
  induction l generalizing lo with
  | nil => simp only [List.length_nil]; omega
  | cons i l ih =>
    have htail : Apart l := ⟨fun j hj => h.order j (List.mem_cons_of_mem _ hj), h.pairwise.tail⟩
    have hstart := hlo i List.mem_cons_self
    have horder := h.order i List.mem_cons_self
    have hstop := hhi i List.mem_cons_self
    have hnext (j : Interval ℤ) (hj : j ∈ l) : i.stop + 1 ≤ j.start :=
      List.rel_of_pairwise_cons h.pairwise hj
    have hrest := ih htail hnext (fun j hj => hhi j (List.mem_cons_of_mem _ hj)) (by omega)
    rw [List.length_cons]
    omega

/-- As many as there can be leave nothing out. -/
theorem Apart.covered_of_length {l : List (Interval ℤ)} {lo hi t : ℤ} (h : Apart l)
    (hlo : ∀ i ∈ l, lo ≤ i.start) (hhi : ∀ i ∈ l, i.stop ≤ hi) (hlen : l.length = hi - lo + 1)
    (ht : lo ≤ t) (ht' : t ≤ hi) : ∃ i ∈ l, i.start ≤ t ∧ t ≤ i.stop := by
  induction l generalizing lo with
  | nil => simp only [List.length_nil] at hlen; omega
  | cons i l ih =>
    have htail : Apart l := ⟨fun j hj => h.order j (List.mem_cons_of_mem _ hj), h.pairwise.tail⟩
    have hstart := hlo i List.mem_cons_self
    have horder := h.order i List.mem_cons_self
    have hstop := hhi i List.mem_cons_self
    have hnext (j : Interval ℤ) (hj : j ∈ l) : i.stop + 1 ≤ j.start :=
      List.rel_of_pairwise_cons h.pairwise hj
    have hrest := htail.length_le hnext (fun j hj => hhi j (List.mem_cons_of_mem _ hj)) (by omega)
    rw [List.length_cons] at hlen
    by_cases hti : t ≤ i.stop
    · exact ⟨i, List.mem_cons_self, by omega, hti⟩
    · obtain ⟨j, hj, hjt⟩ := ih htail hnext (fun j hj => hhi j (List.mem_cons_of_mem _ hj))
        (by omega) (by omega)
      exact ⟨j, List.mem_cons_of_mem _ hj, hjt⟩

end Interval

end InterviewQuestions.Library

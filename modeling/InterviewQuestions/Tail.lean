import InterviewQuestions.Library.Ring
import Mathlib.Data.Int.Order.Basic
import Mathlib.Data.List.TakeWhile
import Mathlib.Tactic.Common

/-! `linux_internals/tail/solution.cpp`. The argument is what `strtol` has made of it. -/
namespace InterviewQuestions.Tail

open Library

/-- The line and what is left of the input. -/
def getline (input : List UInt8) : Option (List UInt8 × List UInt8) :=
  if input = [] then none
  else
    let line := input.takeWhile (· ≠ 10)
    some (line, input.drop (line.length + 1))

structure State where
  buff : ℕ → List UInt8
  head : ℕ
  tail : ℕ

/-- The body of the first loop. -/
def State.store (K : ℕ) (s : State) (line : List UInt8) : State :=
  let tail := (s.tail + 1) % (K + 1)
  { buff := Function.update s.buff s.tail line
    head := if tail = s.head then (s.head + 1) % (K + 1) else s.head
    tail }

theorem length_lt_of_getline {input rest line : List UInt8}
    (h : getline input = some (line, rest)) : rest.length < input.length := by
  unfold getline at h
  split at h
  case isTrue => cases h
  case isFalse hne =>
    cases h
    have hpos := List.length_pos_of_ne_nil hne
    rw [List.length_drop]
    omega

def readLoop (K : ℕ) (input : List UInt8) (s : State) : State :=
  match _h : getline input with
  | none => s
  | some (line, rest) => readLoop K rest (s.store K line)
termination_by input.length
decreasing_by exact length_lt_of_getline _h

/-- There is no result where the loop has more turns. -/
def printLoop (K : ℕ) : ℕ → State → Option (List UInt8)
  | 0, _ => none
  | turns + 1, s =>
      if s.head = s.tail then some []
      else (printLoop K turns { s with head := (s.head + 1) % (K + 1) }).map
        (s.buff s.head ++ [10] ++ ·)

/-- The exit status for an argument that is not positive, or what is printed. -/
def main (K : ℤ) (input : List UInt8) : Except ℕ (Option (List UInt8)) :=
  if K ≤ 0 then .error 129
  else .ok (printLoop K.toNat (K.toNat + 1) (readLoop K.toNat input ⟨fun _ => [], 0, 0⟩))

/-! ## The lines of the input -/

def text (lines : List (List UInt8)) : List UInt8 := lines.flatMap (· ++ [10])

/-- The last line may have no end. -/
structure LinesOf (input : List UInt8) (lines : List (List UInt8)) : Prop where
  ends : ∀ line ∈ lines, 10 ∉ line
  spells : text lines = input ∨ text lines = input ++ [10] ∧ input ≠ [] ∧ input.getLast? ≠ some 10

variable {K : ℕ} {s : State} {input rest line : List UInt8} {lines xs done : List (List UInt8)}

theorem linesOf_nil : LinesOf [] [] := ⟨nofun, Or.inl rfl⟩

theorem LinesOf.cons (hline : getline input = some (line, rest)) (h : LinesOf rest lines) :
    LinesOf input (line :: lines) := by
  unfold getline at hline
  split at hline
  case isTrue => cases hline
  case isFalse hne =>
    simp only [Option.some.injEq, Prod.mk.injEq] at hline
    have ⟨htake, hdrop⟩ := hline
    have hfree : 10 ∉ line := by
      intro hmem
      rw [← htake] at hmem
      simpa using List.mem_takeWhile_imp hmem
    refine ⟨List.forall_mem_cons.mpr ⟨hfree, h.ends⟩, ?_⟩
    have hsplit := List.takeWhile_append_dropWhile (p := (· ≠ (10 : UInt8))) (l := input)
    have hcons : text (line :: lines) = line ++ [10] ++ text lines := rfl
    rw [htake] at hsplit
    cases hbehind : input.dropWhile (· ≠ (10 : UInt8)) with
    | nil =>
      -- the last line has no end
      rw [hbehind, List.append_nil] at hsplit
      have hrest : rest = [] := by
        rw [← hdrop, htake, hsplit]
        exact List.drop_eq_nil_of_le (Nat.le_succ _)
      have hlines : text lines = [] := by
        rcases h.spells with hwhole | hlast
        · rw [hwhole, hrest]
        · exact absurd hrest hlast.2.1
      refine Or.inr ⟨by rw [hcons, hlines, List.append_nil, hsplit], hne, fun hlast => hfree ?_⟩
      rw [hsplit]
      exact List.mem_of_getLast? hlast
    | cons b behind =>
      have hb : b = 10 := by
        have hhead := List.head?_dropWhile_not (p := (· ≠ (10 : UInt8))) input
        rw [hbehind] at hhead
        simpa using hhead
      rw [hbehind, hb] at hsplit
      have hrest : rest = behind := by
        rw [← hdrop, htake, ← hsplit, List.append_cons, ← List.length_singleton (a := (10 : UInt8)),
          ← List.length_append, List.drop_left]
      rw [hcons, ← hsplit]
      rcases h.spells with hwhole | ⟨hlast, hnonempty, hend⟩
      · exact Or.inl (by rw [hwhole, hrest, List.append_assoc]; rfl)
      · refine Or.inr ⟨by rw [hlast, hrest]; simp, by simp, ?_⟩
        rw [hrest] at hend hnonempty
        rw [List.getLast?_append_of_ne_nil _ (List.cons_ne_nil _ _),
          List.getLast?_cons_of_ne_nil hnonempty]
        exact hend

/-! ## The last lines -/

def lastLines (K : ℕ) (lines : List (List UInt8)) : List (List UInt8) :=
  lines.drop (lines.length - K)

/-- The lines between `head` and `tail`. -/
structure Holds (K : ℕ) (s : State) (xs : List (List UInt8)) : Prop where
  cells : Ring.Holds (K + 1) s.buff s.head xs
  head : s.head < K + 1
  tail : s.tail = (s.head + xs.length) % (K + 1)
  length : xs.length ≤ K

theorem length_lastLines (K : ℕ) (lines : List (List UInt8)) :
    (lastLines K lines).length = min K lines.length := by
  rw [lastLines, List.length_drop]
  omega

theorem lastLines_concat (hK : 0 < K) (done : List (List UInt8)) (line : List UInt8) :
    lastLines K (done ++ [line]) =
      (if (lastLines K done).length = K then (lastLines K done).tail else lastLines K done) ++
        [line] := by
  rw [length_lastLines, lastLines, lastLines, List.length_append, List.length_singleton]
  by_cases hlong : K ≤ done.length
  · rw [if_pos (Nat.min_eq_left hlong), List.tail_drop, List.drop_append_of_le_length (by omega),
      Nat.sub_add_comm hlong]
  · rw [if_neg (by omega), List.drop_append_of_le_length (by omega)]
    congr 2
    omega

/-- The array has a place more than there are lines to print. -/
theorem add_length_mod_eq {head n : ℕ} (hhead : head < K + 1) (hn : n ≤ K) :
    (head + n) % (K + 1) = head ↔ n = 0 := by
  constructor
  · intro h
    rcases Nat.lt_or_ge (head + n) (K + 1) with hlt | hge
    · rw [Nat.mod_eq_of_lt hlt] at h
      omega
    · rw [Nat.mod_eq_sub_mod hge, Nat.mod_eq_of_lt (by omega)] at h
      omega
  · intro h
    rw [h, Nat.add_zero, Nat.mod_eq_of_lt hhead]

/-- `tail` meets `head`, and the oldest line is given up. -/
theorem State.store_of_eq (line : List UInt8) (h : (s.tail + 1) % (K + 1) = s.head) :
    s.store K line = ⟨Function.update s.buff s.tail line, (s.head + 1) % (K + 1),
      (s.tail + 1) % (K + 1)⟩ := by
  rw [store]
  simp only [if_pos h]

theorem State.store_of_ne (line : List UInt8) (h : (s.tail + 1) % (K + 1) ≠ s.head) :
    s.store K line = ⟨Function.update s.buff s.tail line, s.head, (s.tail + 1) % (K + 1)⟩ := by
  rw [store]
  simp only [if_neg h]

theorem Holds.store (h : Holds K s xs) (hK : 0 < K) (line : List UInt8) :
    Holds K (s.store K line) ((if xs.length = K then xs.tail else xs) ++ [line]) := by
  have hpush := h.cells.push (Nat.lt_succ_of_le h.length) line
  rw [← h.tail] at hpush
  have htail : (s.tail + 1) % (K + 1) = (s.head + (xs.length + 1)) % (K + 1) := by
    rw [h.tail, Nat.mod_add_mod, Nat.add_assoc]
  by_cases hfull : xs.length = K
  · have hmeets : (s.tail + 1) % (K + 1) = s.head := by
      rw [htail, hfull, Nat.add_mod_right, Nat.mod_eq_of_lt h.head]
    rw [if_pos hfull]
    cases xs with
    | nil =>
      rw [List.length_nil] at hfull
      omega
    | cons x xs =>
      rw [List.length_cons] at hfull
      rw [State.store_of_eq line hmeets]
      refine ⟨hpush.pop, Nat.mod_lt _ (Nat.succ_pos K), ?_, ?_⟩
      · rw [hmeets, List.tail_cons, List.length_append, List.length_singleton, hfull,
          Nat.mod_add_mod, Nat.add_assoc, Nat.add_comm 1 K, Nat.add_mod_right,
          Nat.mod_eq_of_lt h.head]
      · rw [List.tail_cons, List.length_append, List.length_singleton, hfull]
  · have hless : xs.length + 1 ≤ K := lt_of_le_of_ne h.length hfull
    have hapart : (s.tail + 1) % (K + 1) ≠ s.head := by
      rw [htail, Ne, add_length_mod_eq h.head hless]
      exact Nat.succ_ne_zero _
    rw [if_neg hfull, State.store_of_ne line hapart]
    refine ⟨hpush, h.head, ?_, ?_⟩
    · rw [htail, List.length_append, List.length_singleton]
    · rwa [List.length_append, List.length_singleton]

/-- The loop keeps the last lines of all that have been read. -/
theorem readLoop_holds (hK : 0 < K) (input : List UInt8) (s : State) (done : List (List UInt8))
    (h : Holds K s (lastLines K done)) : ∃ lines, LinesOf input lines ∧
      Holds K (readLoop K input s) (lastLines K (done ++ lines)) := by
  fun_induction readLoop K input s generalizing done with
  | case1 input s hnone =>
    have hempty : input = [] := by
      by_contra hne
      rw [getline, if_neg hne] at hnone
      cases hnone
    rw [hempty]
    refine ⟨[], linesOf_nil, ?_⟩
    rwa [List.append_nil]
  | case2 input s line rest hline ih =>
    have hstored := h.store hK line
    rw [← lastLines_concat hK] at hstored
    have ⟨lines, hlines, hholds⟩ := ih (done ++ [line]) hstored
    refine ⟨line :: lines, hlines.cons hline, ?_⟩
    rwa [List.append_cons]

theorem Holds.printLoop (h : Holds K s xs) {turns : ℕ} (hturns : xs.length < turns) :
    printLoop K turns s = some (text xs) := by
  induction turns generalizing s xs with
  | zero => exact absurd hturns (Nat.not_lt_zero _)
  | succ turns ih =>
    rw [Tail.printLoop]
    cases xs with
    | nil =>
      have hmeet : s.head = s.tail := by
        rw [h.tail, List.length_nil, Nat.add_zero, Nat.mod_eq_of_lt h.head]
      rw [if_pos hmeet]
      rfl
    | cons x xs =>
      have hapart : s.head ≠ s.tail := by
        rw [h.tail]
        intro heq
        have hzero := (add_length_mod_eq h.head h.length).mp heq.symm
        cases hzero
      have hlength := h.length
      rw [List.length_cons] at hlength hturns
      have hnext : Holds K { s with head := (s.head + 1) % (K + 1) } xs := by
        refine ⟨h.cells.pop, Nat.mod_lt _ (Nat.succ_pos K), ?_, by omega⟩
        rw [h.tail, List.length_cons, Nat.mod_add_mod, Nat.add_assoc, Nat.add_comm 1]
      rw [if_neg hapart, ih hnext (by omega), Option.map_some, h.cells.head h.head]
      rfl

end InterviewQuestions.Tail

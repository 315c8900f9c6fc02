import InterviewQuestions.Library.Scanf
import Mathlib.Algebra.GroupWithZero.Nat
import Mathlib.Data.List.FinRange
import Mathlib.Tactic.Common

/-! `arrays_strings/fold_paper`. A pointer to a node is the index of the node in the array. -/
namespace InterviewQuestions.FoldPaper

open Library Scanf

structure ArrayNode (n : ℕ) where
  value : ℤ
  up : Option (Fin n)
  down : Option (Fin n)
  top : Fin n

abbrev Arr (n : ℕ) := Fin n → ArrayNode n

variable {n : ℕ}

/-- Half of `merge_stacks`: `other` in the free one of the links of `node`. There is no result where
the assertion fails. -/
def link (arr : Arr n) (node other : Fin n) : Option (Arr n) :=
  if (arr node).up = none then
    some (Function.update arr node { arr node with up := some other })
  else if (arr node).down = none then
    some (Function.update arr node { arr node with down := some other })
  else none

def mergeStacks (arr : Arr n) (below above : Fin n) : Option (Arr n) := do
  let arr ← link arr below above
  link arr above below

def setTop (arr : Arr n) (node top : Fin n) : Arr n :=
  Function.update arr node { arr node with top := top }

/-- `&arr[j]` -/
def nodeAt (n j : ℕ) : Option (Fin n) := if h : j < n then some ⟨j, h⟩ else none

/-- The body of the inner loop, from `k` and `j`. The commands are `'L'` and `'R'`. -/
def foldCell (cmd : UInt8) : Arr n × ℕ → ℕ → Option (Arr n × ℕ)
  | (arr, k), j => do
      let left ← nodeAt n j
      let right ← nodeAt n k
      if cmd = 76 then
        let arr ← mergeStacks arr (arr right).top (arr left).top
        return (setTop arr right left, k - 1)
      else if cmd = 82 then
        let arr ← mergeStacks arr (arr left).top (arr right).top
        return (setTop arr left right, k - 1)
      else none

structure State (n : ℕ) where
  arr : Arr n
  beg : ℕ
  arrSz : ℕ

/-- The body of the outer loop. -/
def foldOnce (s : State n) (cmd : UInt8) : Option (State n) := do
  let (arr, _) ←
    (List.range' s.beg (s.arrSz / 2)).foldlM (foldCell cmd) (s.arr, s.beg + s.arrSz - 1)
  let arrSz := s.arrSz / 2
  return { arr := arr, beg := if cmd = 76 then s.beg + arrSz else s.beg, arrSz := arrSz }

/-- What the last loop prints in `len` rounds. -/
def walk (arr : Arr n) : ℕ → Option (Fin n) → Option (Fin n) → Option (List UInt8)
  | 0, _, _ => some []
  | len + 1, prev, curr => do
      let node ← curr
      let next :=
        if (arr node).up = none ∨ (arr node).up = prev then (arr node).down else (arr node).up
      let printed ← walk arr len (some node) next
      return printInt (arr node).value ++ 32 :: printed

/-- `1 << cmds_sz`; the `1` is an `int`. -/
def shifted (cmdsSz : ℕ) : Option ℕ := if cmdsSz < 31 then some (1 <<< cmdsSz) else none

/-- What is printed. -/
def fold (arr : Arr n) (cmds : List UInt8) : Option (List UInt8) := do
  let len ← shifted cmds.length
  let s ← cmds.foldlM foldOnce { arr := arr, beg := 0, arrSz := len }
  if s.arrSz = 1 then
    let base ← nodeAt n s.beg
    let printed ← walk s.arr len none (some (s.arr base).top)
    return printed ++ [10]
  else none

/-- What `main` fills the array with; no `value` is beyond the largest `int`. -/
def values (n : ℕ) : Arr n := fun i => { value := i + 1, up := none, down := none, top := i }

end InterviewQuestions.FoldPaper

/-! The paper as a row of stacks, each from top to bottom. A fold turns the stacks of one half
upside down. -/
namespace InterviewQuestions.FoldPaper

variable {α β : Type*}

inductive Side where
  | left
  | right
  deriving DecidableEq

/-- `above`, upside down, on `below`. -/
def put (above below : List α) : List α := above.reverse ++ below

/-- Every stack of the folded half comes on its mirror image in the other half. -/
def onto (folded other : List (List α)) : List (List α) := List.zipWith put folded.reverse other

def foldStacks (row : List (List α)) : Side → List (List α)
  | .left => onto (row.take (row.length / 2)) (row.drop (row.length / 2))
  | .right => onto (row.drop (row.length / 2)) (row.take (row.length / 2))

def foldAll (sides : List Side) (row : List (List α)) : List (List α) :=
  sides.foldl foldStacks row

/-- The values from 1 on, one in every stack. -/
def paper (n : ℕ) : List (List ℤ) := (List.range n).map fun (i : ℕ) => [(i : ℤ) + 1]

theorem length_foldStacks (row : List (List α)) (side : Side)
    (heven : row.length / 2 + row.length / 2 = row.length) :
    (foldStacks row side).length = row.length / 2 := by
  cases side <;>
  · simp only [foldStacks, onto, List.length_zipWith, List.length_reverse, List.length_take,
      List.length_drop]
    omega

/-! ## What is in the row -/

theorem put_map (f : α → β) (above below : List α) :
    put (above.map f) (below.map f) = (put above below).map f := by
  rw [put, put, List.map_append, List.map_reverse]

theorem onto_map (f : α → β) (folded other : List (List α)) :
    onto (folded.map (List.map f)) (other.map (List.map f)) =
      (onto folded other).map (List.map f) := by
  unfold onto
  rw [← List.map_reverse, List.zipWith_map, List.map_zipWith]
  simp only [put_map]

theorem foldStacks_map (f : α → β) (row : List (List α)) (side : Side) :
    foldStacks (row.map (List.map f)) side = (foldStacks row side).map (List.map f) := by
  cases side <;>
  · unfold foldStacks
    rw [List.length_map, ← List.map_take, ← List.map_drop]
    exact onto_map f _ _

theorem foldAll_map (f : α → β) (sides : List Side) (row : List (List α)) :
    foldAll sides (row.map (List.map f)) = (foldAll sides row).map (List.map f) := by
  induction sides generalizing row with
  | nil => rfl
  | cons side sides ih =>
    unfold foldAll
    rw [List.foldl_cons, List.foldl_cons, foldStacks_map]
    exact ih (foldStacks row side)

theorem put_perm (above below : List α) : (put above below).Perm (above ++ below) :=
  (List.reverse_perm above).append_right below

theorem zipWith_put_perm {folded other : List (List α)} (h : folded.length = other.length) :
    (List.zipWith put folded other).flatten.Perm (folded.flatten ++ other.flatten) := by
  induction folded generalizing other with
  | nil =>
    rw [List.length_eq_zero_iff.mp h.symm]
    rfl
  | cons above folded ih =>
    cases other with
    | nil => cases h
    | cons below other =>
      have hswap : (below ++ (folded.flatten ++ other.flatten)).Perm
          (folded.flatten ++ (below ++ other.flatten)) :=
        List.perm_append_comm_assoc below folded.flatten other.flatten
      rw [List.zipWith_cons_cons, List.flatten_cons, List.flatten_cons, List.flatten_cons]
      apply ((put_perm above below).append (ih (Nat.succ.inj h))).trans
      rw [List.append_assoc, List.append_assoc]
      exact hswap.append_left above

theorem onto_perm {folded other : List (List α)} (h : folded.length = other.length) :
    (onto folded other).flatten.Perm (folded.flatten ++ other.flatten) := by
  have hlength : folded.reverse.length = other.length := by rw [List.length_reverse, h]
  apply (zipWith_put_perm hlength).trans
  exact (List.reverse_perm folded).flatten.append_right other.flatten

theorem foldStacks_perm (row : List (List α)) (side : Side)
    (heven : row.length / 2 + row.length / 2 = row.length) :
    (foldStacks row side).flatten.Perm row.flatten := by
  have hlength : (row.take (row.length / 2)).length = (row.drop (row.length / 2)).length := by
    rw [List.length_take, List.length_drop]
    omega
  have hrow : row.flatten =
      (row.take (row.length / 2)).flatten ++ (row.drop (row.length / 2)).flatten := by
    rw [← List.flatten_append, List.take_append_drop]
  rw [hrow]
  cases side with
  | left => exact onto_perm hlength
  | right => exact (onto_perm hlength.symm).trans List.perm_append_comm

theorem half_two_pow (k : ℕ) : 2 ^ (k + 1) / 2 = 2 ^ k := by
  rw [Nat.pow_succ, Nat.mul_div_cancel _ Nat.two_pos]

/-- One stack is left, and everything is in it. -/
theorem foldAll_single (sides : List Side) (row : List (List α))
    (hrow : row.length = 2 ^ sides.length) :
    ∃ stack, foldAll sides row = [stack] ∧ stack.Perm row.flatten := by
  induction sides generalizing row with
  | nil =>
    obtain ⟨stack, hstack⟩ := List.length_eq_one_iff.mp hrow
    rw [hstack, List.flatten_singleton]
    exact ⟨stack, rfl, List.Perm.refl stack⟩
  | cons side sides ih =>
    rw [List.length_cons] at hrow
    have hhalf : row.length / 2 = 2 ^ sides.length := by rw [hrow, half_two_pow]
    have heven : row.length / 2 + row.length / 2 = row.length := by
      rw [hhalf, hrow, Nat.pow_succ]
      omega
    have hlength : (foldStacks row side).length = 2 ^ sides.length := by
      rw [length_foldStacks row side heven, hhalf]
    obtain ⟨stack, hstack, hperm⟩ := ih (foldStacks row side) hlength
    exact ⟨stack, hstack, hperm.trans (foldStacks_perm row side heven)⟩

end InterviewQuestions.FoldPaper

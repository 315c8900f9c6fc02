import InterviewQuestions.Library.Backtracking
import InterviewQuestions.Library.CString
import InterviewQuestions.Library.Maze
import Mathlib.Algebra.Ring.Int.Defs
import Mathlib.Data.List.ProdSigma
import Mathlib.Logic.Function.Basic

/-! `recursion_dp/top_box/solution.c`. There is no result where something is written beyond the
buffer. -/
namespace InterviewQuestions.TopBox

open Library

/-- `curr_x`, which is the row, and `curr_y`. -/
abbrev Cell := ℤ × ℤ

abbrev Box := Cell → UInt8

def topBoxRows : ℤ := 6

def topBoxDims : List ℤ := [5, 5, 5, 5, 5, 1]

/-- The index is in the box. -/
def inside (curr : Cell) : Bool :=
  0 ≤ curr.1 && curr.1 < topBoxRows && 0 ≤ curr.2 && curr.2 < topBoxDims.getD curr.1.toNat 0

inductive Move
  | left
  | right
  | up
  | down
  deriving DecidableEq

namespace Move

def text : Move → List UInt8
  | left => [76, 69, 70, 84, 10]
  | right => [82, 73, 71, 72, 84, 10]
  | up => [85, 80, 10]
  | down => [68, 79, 87, 78, 10]

def go : Move → Cell → Cell
  | left, (x, y) => (x, y - 1)
  | right, (x, y) => (x, y + 1)
  | up, (x, y) => (x - 1, y)
  | down, (x, y) => (x + 1, y)

end Move

/-- The order in which the calls are made. -/
def moves : List Move := [.left, .right, .up, .down]

/-- `OK` and a newline. -/
def okText : List UInt8 := [79, 75, 10]

structure State where
  visited : Cell → Int32
  outBuff : List UInt8
  printed : List UInt8

/-- `sprintf(&out_buff[out_i], text)` -/
def sprintf (outBuff : List UInt8) (outI : ℕ) (text : List UInt8) : Option (List UInt8) :=
  if outI + text.length + 1 ≤ outBuff.length then
    some (outBuff.take outI ++ text ++ 0 :: outBuff.drop (outI + text.length + 1))
  else none

/-- `visited[curr_x][curr_y] == word_i`, where the `int` is converted to a `size_t`. -/
def isVisited (s : State) (curr : Cell) (wordI : ℕ) : Bool :=
  (s.visited curr).toInt % 2 ^ 64 == wordI

/-- `word[i]` -/
def letterAt (word : CString) (i : ℕ) : Option UInt8 := (word.bytes ++ [0])[i]?

/-- `OK` is written where the letter is the next one of the word. -/
def selectLetter (word : CString) (box : Box) (wordI outI : ℕ) (curr : Cell) (s : State) :
    Option (ℕ × ℕ × State) :=
  (letterAt word wordI).bind fun letter =>
    if box curr = letter then
      (sprintf s.outBuff outI okText).map fun b =>
        (wordI + 1, outI + okText.length, { s with outBuff := b })
    else some (wordI, outI, s)

/-- The text of a move is written and `path` is called for the cell that it leads to. -/
def tryMove (path : ℕ → Cell → State → Option (Bool × State)) (outI : ℕ) (curr : Cell) (m : Move)
    (s : State) : Option (Bool × State) :=
  (sprintf s.outBuff outI m.text).bind fun b =>
    path (outI + m.text.length) (m.go curr) { s with outBuff := b }

/-- The recursion is at most `depth` calls deep. -/
def topBoxPath (word : CString) (box : Box) :
    ℕ → ℕ → ℕ → Cell → State → Option (Bool × State)
  | 0, _, _, _, _ => none
  | depth + 1, wordI, outI, curr, s =>
      if inside curr = false ∨ isVisited s curr wordI then some (false, s)
      else
        let s := { s with visited := Function.update s.visited curr (Int32.ofNat wordI) }
        (selectLetter word box wordI outI curr s).bind fun (wordI, outI, s) =>
          (letterAt word wordI).bind fun letter =>
            if letter = 0 then
              some (true, { s with printed := s.printed ++ (CString.ofBuffer s.outBuff).bytes })
            else Backtracking.tries (tryMove (topBoxPath word box depth wordI) outI curr) moves s

/-- `buff` is what earlier calls have left in the buffer of 1024 bytes. -/
def topBox (depth : ℕ) (word : CString) (box : Box) (buff : List UInt8) : Option State :=
  (topBoxPath word box depth 0 0 (0, 0) ⟨fun _ => -1, buff, []⟩).map Prod.snd

/-! The cells of the box, and what a search comes to that goes from one of them to another. -/

variable {c d : Cell}

/-- The box as a maze, in which noting a move takes as many bytes as its text has. -/
def remote : Maze Cell Move where
  moves := moves
  go := Move.go
  inside := inside
  cost m := m.text.length

def cells : List Cell :=
  ((List.range 6 ×ˢ List.range 5).map fun p => ((p.1 : ℤ), (p.2 : ℤ))).filter inside

theorem mem_cells : c ∈ cells ↔ inside c = true := by
  obtain ⟨x, y⟩ := c
  unfold cells
  rw [List.mem_filter]
  refine and_iff_right_of_imp fun h => ?_
  simp only [inside, topBoxRows, Bool.and_eq_true, decide_eq_true_eq] at h
  obtain ⟨⟨⟨hx, hrow⟩, hy⟩, hy'⟩ := h
  have hx' : x < 6 := of_decide_eq_true hrow
  have hdim : ∀ r < 6, topBoxDims.getD r 0 ≤ 5 := by decide
  have := hdim x.toNat (by omega)
  refine List.mem_map.mpr ⟨(x.toNat, y.toNat), ?_, ?_⟩
  · rw [List.mem_product, List.mem_range, List.mem_range]
    omega
  · rw [Int.toNat_of_nonneg hx, Int.toNat_of_nonneg hy]

/-- In the corner at the bottom a search may be over as soon as the letter has been found; elsewhere
there is something else to try. -/
def Ordinary (c d : Cell) : Prop :=
  c ≠ d ∧ ¬ (c = (4, 0) ∧ d = (5, 0)) ∧ ¬ (c = (5, 0) ∧ d = (4, 0))

instance (c d : Cell) : Decidable (Ordinary c d) := by
  unfold Ordinary
  infer_instance

/-- What can be tried after the place has been found. -/
def next (t : Trail Cell Move) : Option Cell := t.later.find? inside

def leavesOn (c d : Cell) : Bool :=
  match remote.leave (· == d) 27 [] c with
  | .found t =>
      match next t with
      | none => c = (5, 0)
      | some q => Ordinary q d
  | _ => false

def walksOn (c d : Cell) : Bool :=
  match remote.walk (· == d) 27 [] c with
  | .found t =>
      match next t with
      | none => ¬ Ordinary c d
      | some q => ¬ Ordinary c d ∨ Ordinary q d
  | _ => false

set_option maxRecDepth 100000 in
theorem leavesOn_all : ∀ d ∈ cells, ∀ c ∈ cells, leavesOn c d := by
  decide +kernel

set_option maxRecDepth 100000 in
theorem walksOn_all : ∀ d ∈ cells, ∀ c ∈ cells, walksOn c d := by
  decide +kernel

theorem leave_found (hc : inside c) (hd : inside d) : ∃ t,
    remote.leave (· == d) 27 [] c = .found t ∧
      ((next t = none ∧ c = (5, 0)) ∨ ∃ q, next t = some q ∧ Ordinary q d) := by
  have h := leavesOn_all d (mem_cells.mpr hd) c (mem_cells.mpr hc)
  unfold leavesOn at h
  split at h
  · next t ht =>
    refine ⟨t, ht, ?_⟩
    split at h
    · next hnone => exact .inl ⟨hnone, of_decide_eq_true h⟩
    · next q hq => exact .inr ⟨q, hq, of_decide_eq_true h⟩
  · cases h

theorem walk_found (hc : inside c) (hd : inside d) : ∃ t,
    remote.walk (· == d) 27 [] c = .found t ∧
      (Ordinary c d → ∃ q, next t = some q ∧ Ordinary q d) := by
  have h := walksOn_all d (mem_cells.mpr hd) c (mem_cells.mpr hc)
  unfold walksOn at h
  split at h
  · next t ht =>
    refine ⟨t, ht, fun hord => ?_⟩
    split at h
    · exact absurd hord (of_decide_eq_true h)
    · next q hq => exact ⟨q, hq, (of_decide_eq_true h).resolve_left (not_not.mpr hord)⟩
  · cases h

end InterviewQuestions.TopBox

import InterviewQuestions.Library.CycleDetection
import InterviewQuestions.Library.LinkedLists
import InterviewQuestions.Library.Rearrangement

/-! `linked_lists/find_merge_spot/solution.c`. There is no result where a pointer has no node, and
where a loop has more than `fuel` iterations. -/
namespace InterviewQuestions.FindMergeSpot

open Library LinkedCells CycleDetection

abbrev Memory := ℕ → Option (Cell ℕ ℤ)

/-- `p->next->next` -/
def nextTwice (mem : Memory) (p : Option ℕ) : Option (Option ℕ) := do
  follow mem (← follow mem p)

/-- A loop of `find_loop_start`: the pointers go on, each in its way, until they are equal. -/
def untilEqual (slowStep fastStep : Option ℕ → Option (Option ℕ)) :
    ℕ → Option ℕ → Option ℕ → Option (Option ℕ)
  | 0, _, _ => none
  | fuel + 1, slow, fast =>
      if slow = fast then some slow
      else do untilEqual slowStep fastStep fuel (← slowStep slow) (← fastStep fast)

def findLoopStart (fuel : ℕ) (mem : Memory) (head : Option ℕ) : Option (Option ℕ) := do
  let slow ← follow mem head
  let fast ← nextTwice mem head
  let fast ← untilEqual (follow mem) (nextTwice mem) fuel slow fast
  untilEqual (follow mem) (follow mem) fuel head fast

/-- The memory and the node. There is no result when `assert` fails. -/
def findMergeSpot (fuel : ℕ) (mem : Memory) (h1 h2 : Option ℕ) :
    Option (Memory × Option ℕ) := do
  if h1 ≠ none ∧ h2 ≠ none then
    let last ← findLast mem fuel (← h1)
    let mem ← setNext mem last h1
    let mergeSpot ← findLoopStart fuel mem h2
    let mem ← setNext mem last none
    return (mem, mergeSpot)
  else none

variable {mem : Memory} {cells : List (ℕ × ℤ)} {head : Option ℕ} {a b x y fuel n tail period : ℕ}
  {v : ℤ}

/-! ## The two loops -/

theorem untilEqual_eq {slowStep fastStep : Option ℕ → Option (Option ℕ)} (s t : ℕ → ℕ)
    {start stop : ℕ} (hslow : ∀ n, slowStep (some (s n)) = some (some (s (n + 1))))
    (hfast : ∀ n, fastStep (some (t n)) = some (some (t (n + 1)))) (hle : start ≤ stop)
    (hstop : s stop = t stop) (hbefore : ∀ n, start ≤ n → n < stop → s n ≠ t n)
    (hfuel : stop < start + fuel) :
    untilEqual slowStep fastStep fuel (some (s start)) (some (t start)) = some (some (s stop)) := by
  induction fuel generalizing start with
  | zero => omega
  | succ fuel ih =>
    rw [untilEqual]
    rcases Nat.eq_or_lt_of_le hle with rfl | hlt
    · rw [if_pos (congrArg some hstop)]
    · have hne : some (s start) ≠ some (t start) := fun heq =>
        hbefore start le_rfl hlt (Option.some.inj heq)
      rw [if_neg hne, hslow, hfast]
      exact ih hlt (fun n hn => hbefore n (Nat.le_of_succ_le hn)) (by omega)

/-- The node that a node points to. -/
def succ (mem : Memory) (a : ℕ) : ℕ := ((mem a).bind Cell.next).getD a

theorem findLoopStart_eq (h : Lasso (succ mem) x tail period)
    (hnext : ∀ n, follow mem (some ((succ mem)^[n] x)) = some (some ((succ mem)^[n + 1] x)))
    (hfuel : tail + period ≤ fuel) :
    findLoopStart fuel mem (some x) = some (some ((succ mem)^[tail] x)) := by
  obtain ⟨i, hpos, hle, htail, hdvd, hmeet, hfirst⟩ := h.exists_meeting
  obtain ⟨htailmeet, htailfirst⟩ := h.meets_at_tail htail hdvd
  have hperiod := h.pos
  have htwice (n : ℕ) : nextTwice mem (some ((succ mem)^[n + n] x)) =
      some (some ((succ mem)^[n + 1 + (n + 1)] x)) := by
    have hsum : n + 1 + (n + 1) = n + n + 1 + 1 := by omega
    rw [nextTwice, hnext, hsum]
    exact hnext (n + n + 1)
  have hmeeting : untilEqual (follow mem) (nextTwice mem) fuel (some ((succ mem)^[1] x))
      (some ((succ mem)^[1 + 1] x)) = some (some ((succ mem)^[i] x)) :=
    untilEqual_eq (fun n => (succ mem)^[n] x) (fun n => (succ mem)^[n + n] x) hnext htwice hpos
      hmeet hfirst (by omega)
  have hspot : untilEqual (follow mem) (follow mem) fuel (some ((succ mem)^[0] x))
      (some ((succ mem)^[i + 0] x)) = some (some ((succ mem)^[tail] x)) :=
    untilEqual_eq (fun n => (succ mem)^[n] x) (fun n => (succ mem)^[i + n] x) hnext
      (fun n => hnext (i + n)) (Nat.zero_le tail) htailmeet (fun j _ => htailfirst j) (by omega)
  have hslow : follow mem (some x) = some (some ((succ mem)^[1] x)) := hnext 0
  have hfast : nextTwice mem (some x) = some (some ((succ mem)^[1 + 1] x)) := htwice 0
  rw [findLoopStart, hslow, hfast]
  simp only [Option.bind_eq_bind, Option.bind_some, hmeeting]
  exact hspot

/-! ## The path from the second list -/

/-- Following the pointers leads from cell to cell and to the end. -/
theorem getElem?_iterate (h : Segment mem (some x) cells (some y)) (hn : n ≤ cells.length) :
    (cells.map Prod.fst ++ [y])[n]? = some ((succ mem)^[n] x) := by
  induction cells generalizing x n with
  | nil =>
    obtain rfl := Option.some.inj h
    obtain rfl := Nat.le_zero.mp hn
    rfl
  | cons cell cells ih =>
    obtain ⟨hx, next, hcell, hrest⟩ := h
    obtain rfl := Option.some.inj hx
    cases n with
    | zero => rfl
    | succ n =>
      obtain ⟨b, rfl⟩ := hrest.head_eq
      have hsucc : succ mem cell.1 = b := by
        rw [succ, hcell]
        rfl
      rw [List.map_cons, List.cons_append, List.getElem?_cons_succ, Function.iterate_succ_apply,
        hsucc]
      exact ih hrest (Nat.le_of_succ_le_succ hn)

section Closed

-- The last node points back to the node `y`, which is behind some others.
variable {front rest : List (ℕ × ℤ)}
  (h : Segment mem (some x) (front ++ (y, v) :: rest) (some y))

include h

theorem iterate_mem (n : ℕ) : (succ mem)^[n] x ∈ (front ++ (y, v) :: rest).map Prod.fst ∧
    follow mem (some ((succ mem)^[n] x)) = some (some ((succ mem)^[n + 1] x)) := by
  have hnext (a : ℕ) (ha : a ∈ (front ++ (y, v) :: rest).map Prod.fst) :
      succ mem a ∈ (front ++ (y, v) :: rest).map Prod.fst ∧
        follow mem (some a) = some (some (succ mem a)) := by
    obtain ⟨w, c, hcell, hc⟩ := h.next_mem ha
    have hsucc : succ mem a = c := by
      rw [succ, hcell]
      rfl
    rw [hsucc]
    constructor
    · rcases hc with hc | rfl
      · exact hc
      · simp
    · simp only [follow, Option.bind_some, hcell]
      rfl
  have hmem : (succ mem)^[n] x ∈ (front ++ (y, v) :: rest).map Prod.fst := by
    induction n with
    | zero =>
      cases front with
      | nil => exact List.mem_of_mem_head? (by rw [Function.iterate_zero_apply]; exact h.1.symm)
      | cons cell front => exact List.mem_of_mem_head? h.1.symm
    | succ n ih =>
      rw [Function.iterate_succ_apply']
      exact (hnext _ ih).1
  rw [Function.iterate_succ_apply']
  exact ⟨hmem, (hnext _ hmem).2⟩

theorem getElem?_path (hn : n < front.length + (rest.length + 1)) :
    ((front ++ (y, v) :: rest).map Prod.fst)[n]? = some ((succ mem)^[n] x) := by
  have hlen : (front ++ (y, v) :: rest).length = front.length + (rest.length + 1) := by simp
  have hiter := getElem?_iterate h (hn.le.trans hlen.ge)
  rwa [List.getElem?_append_left (by rwa [List.length_map, hlen])] at hiter

theorem iterate_length_front : (succ mem)^[front.length] x = y := by
  have hmiddle := getElem?_path h (show front.length < _ by omega)
  rw [List.map_append, List.map_cons, ← List.length_map (f := Prod.fst), getElem?_append_cons,
    List.length_map] at hmiddle
  exact (Option.some.inj hmiddle).symm

theorem lasso (hnodup : ((front ++ (y, v) :: rest).map Prod.fst).Nodup) :
    Lasso (succ mem) x front.length (rest.length + 1) := by
  have hlen : (front ++ (y, v) :: rest).length = front.length + (rest.length + 1) := by simp
  refine ⟨Nat.succ_pos _, ?_, fun i hi j hj heq => ?_⟩
  · have hend := getElem?_iterate h le_rfl
    rw [← List.length_map (f := Prod.fst), List.getElem?_concat_length, List.length_map,
      hlen] at hend
    rw [iterate_length_front h]
    exact (Option.some.inj hend).symm
  · apply (List.getElem?_inj (by rwa [List.length_map, hlen]) hnodup).mp
    rw [getElem?_path h hi, getElem?_path h hj, heq]

end Closed

variable {h1 h2 : Option ℕ} {front1 front2 shared : List (ℕ × ℤ)}

/-- The first list closed to a cycle, seen from the second one. -/
theorem segment_closed {mem' : Memory} (hfirst : Segment mem' h1 (front1 ++ (y, v) :: shared) h1)
    (hsecond : Segment mem' h2 (front2 ++ (y, v) :: shared) h1) :
    Segment mem' h2 (front2 ++ (y, v) :: (shared ++ front1)) (some y) := by
  obtain ⟨middle, hfront, hshared⟩ := segment_append.mp hfirst
  obtain rfl : middle = some y := hshared.1
  have hall := segment_append.mpr ⟨_, hsecond, hfront⟩
  rwa [List.append_assoc] at hall

theorem nodup_closed (hfirst : Holds mem h1 (front1 ++ shared))
    (hsecond : Holds mem h2 (front2 ++ shared))
    (hdisjoint : List.Disjoint (front1.map Prod.fst) (front2.map Prod.fst)) :
    ((front2 ++ (shared ++ front1)).map Prod.fst).Nodup := by
  have hnodup1 := hfirst.nodup
  have hnodup2 := hsecond.nodup
  rw [List.map_append, List.nodup_append'] at hnodup1 hnodup2
  rw [List.map_append, List.map_append, List.nodup_append', List.nodup_append',
    List.disjoint_append_right]
  exact ⟨hnodup2.1, ⟨hnodup2.2.1, hnodup1.1, hnodup1.2.2.symm⟩, hnodup2.2.2, hdisjoint.symm⟩

theorem exists_head (h : Holds mem head cells) (hne : cells ≠ []) : ∃ x, head = some x := by
  cases cells with
  | nil => exact absurd rfl hne
  | cons cell cells => exact ⟨cell.1, h.1⟩

theorem findLoopStart_closed {mem' : Memory}
    (h : Segment mem' (some x) (front2 ++ (y, v) :: (shared ++ front1)) (some y))
    (hnodup : ((front2 ++ (y, v) :: (shared ++ front1)).map Prod.fst).Nodup)
    (hfuel : front1.length + front2.length + (shared.length + 1) ≤ fuel) :
    findLoopStart fuel mem' (some x) = some (some y) := by
  have hcycle := lasso h hnodup
  rw [List.length_append] at hcycle
  rw [findLoopStart_eq hcycle (fun n => (iterate_mem h n).2) (by omega), iterate_length_front h]

/-- The first node that both lists have is found, and the memory is as before. -/
theorem findMergeSpot_eq (hfirst : Holds mem h1 (front1 ++ shared))
    (hsecond : Holds mem h2 (front2 ++ shared)) (hne1 : front1 ≠ []) (hne2 : front2 ≠ [])
    (hshared : shared ≠ [])
    (hdisjoint : List.Disjoint (front1.map Prod.fst) (front2.map Prod.fst))
    (hfuel : front1.length + front2.length + shared.length ≤ fuel) :
    findMergeSpot fuel mem h1 h2 = some (mem, shared.head?.map Prod.fst) := by
  obtain ⟨x₁, rfl⟩ := exists_head hfirst (List.append_ne_nil_of_left_ne_nil hne1 _)
  obtain ⟨x₂, rfl⟩ := exists_head hsecond (List.append_ne_nil_of_left_ne_nil hne2 _)
  have hnodup := nodup_closed hfirst hsecond hdisjoint
  obtain ⟨init, ⟨last, w⟩, hinit⟩ : ∃ init cell, shared = init ++ [cell] := by
    rcases List.eq_nil_or_concat shared with hnil | ⟨init, cell, hconcat⟩
    · exact absurd hnil hshared
    · exact ⟨init, cell, hconcat.trans List.concat_eq_append⟩
  obtain ⟨⟨y, v⟩, rest, hrest⟩ := List.exists_cons_of_ne_nil hshared
  have hsplit (front : List (ℕ × ℤ)) : front ++ init ++ [(last, w)] = front ++ (y, v) :: rest := by
    rw [List.append_assoc, ← hinit, hrest]
  have hlen := congrArg List.length hinit
  rw [List.length_append, List.length_singleton] at hlen
  rw [hrest, ← hsplit] at hfirst hsecond
  have hcell := Segment.last hfirst
  have hnew {front : List (ℕ × ℤ)} {head : Option ℕ}
      (hholds : Holds mem head (front ++ init ++ [(last, w)])) :
      last ∉ (front ++ init).map Prod.fst := by
    have hall := hholds.nodup
    rw [List.map_append, List.nodup_append'] at hall
    exact fun hmem => hall.2.2 hmem (List.mem_singleton_self last)
  have hclosed1 := hfirst.redirect (hnew hfirst) (some x₁)
  have hclosed2 := hsecond.redirect (hnew hsecond) (some x₁)
  rw [hsplit] at hclosed1 hclosed2
  rw [hrest] at hnodup hlen hfuel ⊢
  have hspot := findLoopStart_closed (segment_closed hclosed1 hclosed2) hnodup hfuel
  have hlast : findLast mem fuel x₁ = some last := by
    apply findLast_eq hfirst
    rw [List.length_append]
    omega
  have hback : Function.update (Function.update mem last (some ⟨w, some x₁⟩)) last
      (some ⟨w, none⟩) = mem := by
    rw [Function.update_idem, ← hcell, Function.update_eq_self]
  unfold findMergeSpot
  rw [if_pos ⟨Option.some_ne_none _, Option.some_ne_none _⟩]
  simp only [Option.bind_eq_bind, Option.bind_some, hlast, setNext_eq hcell, hspot,
    setNext_eq (Function.update_self ..), hback]
  rfl

/-- 0 to 2, and 3 in front of 1. -/
def merging : Memory := fun a =>
  ([⟨0, some 1⟩, ⟨1, some 2⟩, ⟨2, none⟩, ⟨3, some 1⟩] : List (Cell ℕ ℤ))[a]?

theorem findMergeSpot_merging :
    findMergeSpot 4 merging (some 0) (some 3) = some (merging, some 1) := by
  have hshared : Segment merging (some 1) [(1, 1), (2, 2)] none := by
    simp [Segment, merging]
  have hfirst : Holds merging (some 0) ([(0, 0)] ++ [(1, 1), (2, 2)]) := hshared.cons rfl
  have hsecond : Holds merging (some 3) ([(3, 3)] ++ [(1, 1), (2, 2)]) := hshared.cons rfl
  exact findMergeSpot_eq hfirst hsecond (by decide) (by decide) (by decide) (by simp) (by decide)

end InterviewQuestions.FindMergeSpot

import InterviewQuestions.Library.LinkedLists
import Mathlib.Algebra.GroupWithZero.Nat
import Mathlib.Data.List.Lattice
import Mathlib.Data.List.Pairwise

/-! Several stacks in one memory, between which nodes are moved. -/
namespace InterviewQuestions.Library.LinkedStack

variable {α ι : Type*} {indices : List ι} {all loose : List α} {next : α → Option α}
  {top : ι → Option α} {nodes : ι → List α} {i : ι} {a : α}

/-- Stacks whose nodes, together with those that are on none of them, are `all`. -/
structure Several (indices : List ι) (all : List α) (next : α → Option α) (top : ι → Option α)
    (nodes : ι → List α) (loose : List α) : Prop where
  linked : ∀ i, Linked next (top i) (nodes i)
  perm : (loose ++ indices.flatMap nodes).Perm all

/-- A node that is on none of the stacks. -/
theorem Several.notMem (h : Several indices all next top nodes (a :: loose)) (hall : all.Nodup)
    (hi : i ∈ indices) : a ∉ nodes i := by
  have hnodup := h.perm.nodup_iff.mpr hall
  rw [List.cons_append, List.nodup_cons, List.mem_append, not_or] at hnodup
  exact fun ha => hnodup.1.2 (List.mem_flatMap.mpr ⟨i, hi, ha⟩)

/-- A node is on one stack only. -/
theorem Several.existsUnique (h : Several indices all next top nodes []) (hall : all.Nodup)
    (hindices : ∀ i, i ∈ indices) (ha : a ∈ all) : ∃! i, a ∈ nodes i := by
  have hnodup := h.perm.nodup_iff.mpr hall
  rw [List.nil_append, List.nodup_flatMap] at hnodup
  obtain ⟨i, -, hi⟩ := List.mem_flatMap.mp (h.perm.mem_iff.mpr ha)
  refine ⟨i, hi, fun j hj => ?_⟩
  by_contra hne
  have hsymm : Std.Symm (Function.onFun List.Disjoint nodes) := ⟨fun _ _ h => List.Disjoint.symm h⟩
  exact hnodup.2.forall (hindices j) (hindices i) hne hj hi

theorem Several.length (h : Several indices all next top nodes loose) :
    loose.length + (indices.map fun i => (nodes i).length).sum = all.length := by
  rw [← h.perm.length_eq, List.length_append, List.length_flatMap]

variable [DecidableEq ι]

theorem flatMap_update (nodes : ι → List α) (hi : i ∈ indices) (hindices : indices.Nodup) (a : α)
    (rest : List α) :
    (indices.flatMap (Function.update nodes i (a :: rest))).Perm
      (a :: indices.flatMap (Function.update nodes i rest)) := by
  induction indices with
  | nil => cases hi
  | cons j indices ih =>
    obtain ⟨hj, hindices⟩ := List.nodup_cons.mp hindices
    rw [List.flatMap_cons, List.flatMap_cons]
    rcases List.mem_cons.mp hi with rfl | hi
    · have hother : indices.flatMap (Function.update nodes i (a :: rest)) =
          indices.flatMap (Function.update nodes i rest) := by
        apply List.flatMap_congr
        intro j' hj'
        have hne := ne_of_mem_of_not_mem hj' hj
        rw [Function.update_of_ne hne, Function.update_of_ne hne]
      rw [hother, Function.update_self, Function.update_self, List.cons_append]
    · have hne : j ≠ i := (ne_of_mem_of_not_mem hi hj).symm
      rw [Function.update_of_ne hne, Function.update_of_ne hne]
      exact ((ih hi hindices).append_left _).trans List.perm_middle

/-- The first node is taken off a stack. -/
theorem Several.pop (h : Several indices all next top nodes loose) (hi : i ∈ indices)
    (hindices : indices.Nodup) (htop : top i = some a) :
    ∃ rest, nodes i = a :: rest ∧ Several indices all next (Function.update top i (next a))
      (Function.update nodes i rest) (a :: loose) := by
  have hlinked := h.linked i
  rw [htop] at hlinked
  obtain ⟨rest, hnodes, hrest⟩ := hlinked.pop
  have hperm := flatMap_update nodes hi hindices a rest
  rw [← hnodes, Function.update_eq_self] at hperm
  refine ⟨rest, hnodes, fun j => ?_, ?_⟩
  · by_cases hj : j = i
    · subst hj
      rwa [Function.update_self, Function.update_self]
    · rw [Function.update_of_ne hj, Function.update_of_ne hj]
      exact h.linked j
  · rw [List.cons_append]
    exact (List.perm_middle.symm.trans (hperm.symm.append_left loose)).trans h.perm

/-- A node is put on a stack. -/
theorem Several.push [DecidableEq α] (h : Several indices all next top nodes (a :: loose))
    (hall : all.Nodup) (hall' : ∀ i, i ∈ indices) (hindices : indices.Nodup) (i : ι) :
    Several indices all (Function.update next a (top i)) (Function.update top i (some a))
      (Function.update nodes i (a :: nodes i)) loose := by
  have hlinked (j : ι) : Linked (Function.update next a (top i)) (top j) (nodes j) :=
    (h.linked j).update (h.notMem hall (hall' j)) (top i)
  have hperm := flatMap_update nodes (hall' i) hindices a (nodes i)
  rw [Function.update_eq_self] at hperm
  constructor
  · intro j
    by_cases hj : j = i
    · subst hj
      rw [Function.update_self, Function.update_self]
      exact (hlinked j).push (Function.update_self ..)
    · rw [Function.update_of_ne hj, Function.update_of_ne hj]
      exact hlinked j
  · exact ((hperm.append_left loose).trans List.perm_middle).trans h.perm

end InterviewQuestions.Library.LinkedStack

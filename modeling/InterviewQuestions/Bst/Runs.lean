import InterviewQuestions.Bst.Successor

/-! Runs of insertions and deletions from the empty tree: how long the pointers of the
tree stay consistent. -/
namespace InterviewQuestions.Bst

open Library Library.PointerTree Library.Machine

variable {s s' : State} {t : BinaryTree Address}

/-- The root has no parent, children point back to the node they are a child of, and every
pointer of the tree leads to a node that has not been destroyed. -/
structure Consistent (s : State) : Prop where
  root : ∀ r, s.root = some r → r ∈ s.mem.live ∧ s.mem.parent r = none
  child : ∀ a c, Reachable s.mem.left s.mem.right s.root a →
    s.mem.left a = some c ∨ s.mem.right a = some c → s.mem.parent c = some a
  alive : ∀ a b, Reachable s.mem.left s.mem.right s.root a →
    s.mem.left a = some b ∨ s.mem.right a = some b ∨ s.mem.parent a = some b → b ∈ s.mem.live

/-- A call has returned and left a consistent tree. -/
def ReturnsConsistent (s : Option State) : Prop := ∃ s', s = some s' ∧ Consistent s'

/-- `malloc` returns an address that is not in use. -/
def Fresh (s : Option State) : Op → Prop
  | .insert _ block => ∀ s' ∈ s, block ∉ s'.mem.live
  | .delete _ => True

/-- A deleted node with two children has a right child with a left child. -/
def SuccessorDeep (s : Option State) : Op → Prop
  | .insert _ _ => True
  | .delete k => ∀ s' ∈ s, ∀ z ∈ (treeFind s'.mem s'.root k).join,
      s'.mem.left z ≠ none → ∀ c ∈ s'.mem.right z, s'.mem.left c ≠ none

instance decidableFresh (s : Option State) : ∀ op, Decidable (Fresh s op)
  | .insert _ block => inferInstanceAs (Decidable (∀ s' ∈ s, block ∉ s'.mem.live))
  | .delete _ => isTrue trivial

instance decidableSuccessorDeep (s : Option State) : ∀ op, Decidable (SuccessorDeep s op)
  | .insert _ _ => isTrue trivial
  | .delete k => inferInstanceAs (Decidable (∀ s' ∈ s, ∀ z ∈ (treeFind s'.mem s'.root k).join,
      s'.mem.left z ≠ none → ∀ c ∈ s'.mem.right z, s'.mem.left c ≠ none))

/-- The state holds the tree `t`, with right parents. -/
structure Holds (s : State) (t : BinaryTree Address) : Prop where
  root : s.root = top t
  linked : Linked s.mem t
  parents : Parents s.mem.parent none t

theorem Holds.consistent (h : Holds s t) : Consistent s := by
  have hmem : ∀ a, Reachable s.mem.left s.mem.right s.root a → a ∈ inorder t := by
    intro a ha
    rw [h.root] at ha
    exact h.linked.children.mem_of_reachable ha
  constructor
  · intro r hr
    rw [h.root] at hr
    exact ⟨h.linked.live r (mem_inorder_of_top hr), h.parents.of_top hr⟩
  · intro a c ha hc
    exact h.parents.child h.linked.children (hmem a ha) hc
  · intro a b ha hb
    apply h.linked.live
    rcases hb with hb | hb | hb
    · exact h.linked.children.child_mem (hmem a ha) (Or.inl hb)
    · exact h.linked.children.child_mem (hmem a ha) (Or.inr hb)
    · exact (h.parents.parent_mem (hmem a ha) hb).resolve_left (Option.some_ne_none b).symm

theorem holds_empty (node : Address → TreeNode) : Holds (State.empty node) .nil where
  root := rfl
  linked := ⟨trivial, List.nodup_nil, fun _ ha => absurd ha List.not_mem_nil⟩
  parents := trivial

theorem Holds.insert (h : Holds s t) {block : Address} (hfresh : block ∉ s.mem.live) (k : Int32) :
    ∃ s' t', s.call (.insert k block) = some s' ∧ Holds s' t' := by
  obtain ⟨t', mem', hinsert, hlinked, hparents⟩ := treeInsert_spec h.linked h.parents hfresh k
  refine ⟨⟨mem', top t'⟩, t', ?_, rfl, hlinked, hparents⟩
  rw [State.call, h.root, hinsert]
  rfl

/-- The left child of a node that its right child replaced still points up to it. -/
theorem not_consistent_of_child_successor {z y : Address} {mem : Memory}
    (hlinked : Linked mem t) (hy : y ∈ inorder t) (hup : mem.parent y = some z)
    (hz : z ∉ mem.live) : ¬ Consistent ⟨mem, top t⟩ := by
  intro h
  apply hz
  apply h.alive y z _ (Or.inr (Or.inr hup))
  exact hlinked.children.reachable (fun b hb => .root hb) hy

section Delete

variable {mem mem' : Memory} {root root' : Option Address} {k : Int32} {z : Address}

theorem successorDeep_iff (hfind : treeFind mem root k = some (some z)) :
    SuccessorDeep (some ⟨mem, root⟩) (.delete k) ↔
      (mem.left z ≠ none → ∀ c, mem.right z = some c → mem.left c ≠ none) := by
  simp [SuccessorDeep, hfind]

theorem call_delete (hfind : treeFind mem root k = some (some z))
    (hdelete : treeDeleteInternal mem root z = some (mem', root')) :
    State.call ⟨mem, root⟩ (.delete k) = some ⟨mem', root'⟩ := by
  simp only [State.call, treeDelete, hfind, hdelete, Option.map_some]

variable {p : Path Address} {l r : BinaryTree Address}

/-- The right child takes the place of the deleted node, and the left child stays behind. -/
theorem delete_child_successor_bad {y c : Address} {ll lr rr : BinaryTree Address}
    (hlinked : Linked mem (p.fill (.node z (.node y ll lr) (.node c .nil rr))))
    (hparents : Parents mem.parent none (p.fill (.node z (.node y ll lr) (.node c .nil rr))))
    (hmin : treeMinimum mem (mem.right z) = some (some c)) : ∃ mem' root',
      treeDeleteInternal mem (top (p.fill (.node z (.node y ll lr) (.node c .nil rr)))) z =
        some (mem', root') ∧ ¬ Consistent ⟨mem', root'⟩ := by
  obtain ⟨mem', hdelete, hlinked', hdead, hsame⟩ :=
    delete_child_successor hlinked hparents (by simp) hmin
  refine ⟨mem', _, hdelete, ?_⟩
  have hy : y ∈ inorder (.node y ll lr) := mem_inorder_of_top rfl
  have hnode := nodup_node.mp hlinked'.of_fill.nodup
  apply not_consistent_of_child_successor (y := y) hlinked' _ _ hdead
  · exact Path.mem_fill.mpr (Or.inr (List.mem_append_left _ hy))
  · rw [hsame y (ne_of_mem_of_not_mem hy hnode.1.1)]
    exact (Path.parents_fill.mp hparents).2.2.1.1

/-- Deletion of a node with two children: what happens depends on the right child having a
left child. -/
theorem delete_two_children (hlinked : Linked mem (p.fill (.node z l r)))
    (hparents : Parents mem.parent none (p.fill (.node z l r))) (hl : l ≠ .nil) (hr : r ≠ .nil) :
    ∃ mem' root', treeDeleteInternal mem (top (p.fill (.node z l r))) z = some (mem', root') ∧
      ((∀ c, mem.right z = some c → mem.left c ≠ none) ∧ (∃ t', Holds ⟨mem', root'⟩ t') ∨
        ¬ (∀ c, mem.right z = some c → mem.left c ≠ none) ∧ ¬ Consistent ⟨mem', root'⟩) := by
  obtain ⟨_, hright, _⟩ := (Path.children_fill.mp hlinked.children).2
  cases r with
  | nil => exact absurd rfl hr
  | node c rl rr =>
    have hlinkedRight : Linked mem (.node c rl rr) :=
      Linked.of_fill (p := .right .root z l) hlinked.of_fill
    obtain ⟨q, s, sr, hfill, hmin, hroot⟩ := hlinkedRight.treeMinimum_spec
    have hright' : mem.right z = some c := hright
    rw [← hright'] at hmin
    have hc : mem.left c = top rl := hlinkedRight.children.1
    by_cases hrl : rl = .nil
    · cases q with
      | root =>
        cases hfill
        cases l with
        | nil => exact absurd rfl hl
        | node y ll lr =>
          obtain ⟨mem', root', hdelete, hbad⟩ := delete_child_successor_bad hlinked hparents hmin
          exact ⟨mem', root', hdelete, Or.inr ⟨fun hdeep => hdeep c hright' hc, hbad⟩⟩
      | left up a r => exact absurd (hroot.mpr hrl) (Option.some_ne_none a)
      | right up a l => exact absurd (hroot.mpr hrl) (Option.some_ne_none a)
    · rw [← hfill] at hlinked hparents ⊢
      obtain ⟨mem', hdelete, hlinked', hparents'⟩ := delete_deep_successor hlinked hparents hl
        (fun hnone => hrl (hroot.mp hnone)) hmin
      refine ⟨mem', _, hdelete, Or.inl ⟨?_, _, rfl, hlinked', hparents'⟩⟩
      intro c' hc'
      rw [hright'] at hc'
      cases hc'
      rwa [hc, Ne, top_eq_none_iff]

end Delete

/-- A deletion returns; it keeps the tree unless the right child takes the deleted place. -/
theorem Holds.delete (h : Holds s t) (k : Int32) : ∃ s', s.call (.delete k) = some s' ∧
    (SuccessorDeep (some s) (.delete k) ∧ (∃ t', Holds s' t') ∨
      ¬ SuccessorDeep (some s) (.delete k) ∧ ¬ Consistent s') := by
  obtain ⟨mem, root⟩ := s
  obtain ⟨rfl, hlinked, hparents⟩ := h
  simp only at hlinked hparents
  rcases hlinked.treeFind_spec k with hfind | ⟨p, z, l, r, rfl, hfind⟩
  · refine ⟨⟨mem, top t⟩, ?_, Or.inl ⟨?_, t, rfl, hlinked, hparents⟩⟩
    · simp only [State.call, treeDelete, hfind, Option.map_some]
    · simp [SuccessorDeep, hfind]
  obtain ⟨hleft, hright, _⟩ := (Path.children_fill.mp hlinked.children).2
  rw [successorDeep_iff hfind]
  by_cases hl : l = .nil
  · subst hl
    obtain ⟨mem', hdelete, hlinked', hparents'⟩ := delete_no_left hlinked hparents
    refine ⟨_, call_delete hfind hdelete, Or.inl ⟨?_, _, rfl, hlinked', hparents'⟩⟩
    exact fun hne => absurd hleft hne
  have hl' : mem.left z ≠ none := by rwa [hleft, Ne, top_eq_none_iff]
  by_cases hr : r = .nil
  · subst hr
    obtain ⟨mem', hdelete, hlinked', hparents'⟩ := delete_no_right hlinked hparents hl
    refine ⟨_, call_delete hfind hdelete, Or.inl ⟨?_, _, rfl, hlinked', hparents'⟩⟩
    intro _ c hc
    cases hright.symm.trans hc
  · obtain ⟨mem', root', hdelete, hcases⟩ := delete_two_children hlinked hparents hl hr
    refine ⟨_, call_delete hfind hdelete, ?_⟩
    rwa [forall_prop_of_true hl']

/-- The invariant of a run. -/
def HoldsTree (s : Option State) : Prop := ∃ s' t, s = some s' ∧ Holds s' t

theorem HoldsTree.step {s : Option State} {op : Op} (h : HoldsTree s) (hfresh : Fresh s op) :
    SuccessorDeep s op ∧ HoldsTree (step s op).1 ∨
      ¬ SuccessorDeep s op ∧ ¬ ReturnsConsistent (step s op).1 := by
  obtain ⟨s, t, rfl, ht⟩ := h
  cases op with
  | insert k block =>
    obtain ⟨s', t', hcall, ht'⟩ := ht.insert (hfresh s rfl) k
    exact Or.inl ⟨trivial, s', t', hcall, ht'⟩
  | delete k =>
    obtain ⟨s', hcall, ⟨hdeep, t', ht'⟩ | ⟨hchild, hbad⟩⟩ := ht.delete k
    · exact Or.inl ⟨hdeep, s', t', hcall, ht'⟩
    · apply Or.inr
      refine ⟨hchild, ?_⟩
      rintro ⟨s'', hcall', hgood⟩
      cases hcall.symm.trans hcall'
      exact hbad hgood

/-- Every call of a run returns a consistent tree, if and only if no deletion replaces a
node by its right child. -/
theorem pointers_consistent_iff (node : Address → TreeNode) (ops : List Op)
    (hfresh : Admits step Fresh (some (.empty node)) ops) :
    (∀ done later, ops = done ++ later →
        ReturnsConsistent (run step (some (.empty node)) done).1) ↔
      Admits step SuccessorDeep (some (.empty node)) ops := by
  apply forall_good_iff HoldsTree ReturnsConsistent _ _ _ hfresh
  · rintro s ⟨s', t, hs, ht⟩
    exact ⟨s', hs, ht.consistent⟩
  · exact fun s op hs hop => hs.step hop
  · exact ⟨_, .nil, rfl, holds_empty node⟩

/-- Deletions with no child, of the root with a deep successor and of a node with one child. -/
theorem pointers_consistent_iff_sample :
    let node : Address → TreeNode := fun _ => ⟨0, none, none, none⟩
    let ops := [.insert 5 1, .insert 3 2, .insert 8 3, .insert 7 4, .insert 8 5, .delete 5,
      .insert 1 1, .delete 8, .delete 4, .delete 3, .delete 1]
    ∀ done later, ops = done ++ later →
      ReturnsConsistent (run step (some (.empty node)) done).1 :=
  (pointers_consistent_iff _ _ (by decide +kernel)).mpr (by decide +kernel)

/-- After 2, 1 and 3 are inserted and 2 is deleted, the parent of 1 is the destroyed node. -/
theorem pointers_dangle : ¬ ∀ (node : Address → TreeNode) (ops : List Op),
    Admits step Fresh (some (.empty node)) ops → ∀ done later, ops = done ++ later →
      ReturnsConsistent (run step (some (.empty node)) done).1 := by
  intro hall
  let node : Address → TreeNode := fun _ => ⟨0, none, none, none⟩
  let ops : List Op := [.insert 2 20, .insert 1 10, .insert 3 30, .delete 2]
  obtain ⟨s, hrun, hgood⟩ := hall node ops (by decide +kernel) ops [] (List.append_nil ops).symm
  have hpointers : (run step (some (.empty node)) ops).1.map (fun s =>
      (s.root, s.mem.left 30, s.mem.parent 10, s.mem.live)) =
        some (some 30, some 10, some 20, [30, 10]) := by decide +kernel
  rw [hrun, Option.map_some, Option.some.injEq] at hpointers
  simp only [Prod.mk.injEq] at hpointers
  obtain ⟨hroot, hleft, hparent, hlive⟩ := hpointers
  have hreach : Reachable s.mem.left s.mem.right s.root 10 := .left (.root hroot) hleft
  have hdead := hgood.alive 10 20 hreach (Or.inr (Or.inr hparent))
  rw [hlive] at hdead
  revert hdead
  decide

end InterviewQuestions.Bst

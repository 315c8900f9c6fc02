import InterviewQuestions.Bst.Pointers
import Mathlib.Data.List.Nodup

/-! The nodes before and behind a node, from left to right. What is to the left is to the right in
the mirror. -/
namespace InterviewQuestions.Bst

open Library Library.PointerTree

variable {mem : Memory} {t l r : BinaryTree Address} {p : Path Address} {a n m : Address}
  {front back : List Address}

/-! ## The mirror -/

/-- The memory with the two fields for children exchanged in every node. -/
def Memory.mirror (mem : Memory) : Memory :=
  { mem with node := fun a => { mem.node a with left := mem.right a, right := mem.left a } }

theorem treeMaximum_eq (mem : Memory) (root : Option Address) :
    treeMaximum mem root = treeMinimum mem.mirror root := by
  have hloop (fuel : ℕ) (root : Address) :
      treeMaximum.loop mem fuel root = treeMinimum.loop mem.mirror fuel root := by
    induction fuel generalizing root with
    | zero => rfl
    | succ fuel ih =>
      have hleft : mem.mirror.left root = mem.right root := rfl
      rw [treeMaximum.loop, treeMinimum.loop, hleft]
      cases mem.right root with
      | none => rfl
      | some next => exact ih next
  cases root with
  | none => rfl
  | some root => exact congrArg (Option.map some) (hloop _ root)

theorem treePredecessor_eq (mem : Memory) (root : Option Address) :
    treePredecessor mem root = treeSuccessor mem.mirror root := by
  have hloop (fuel : ℕ) (root : Address) (p : Option Address) :
      treePredecessor.loop mem fuel root p = treeSuccessor.loop mem.mirror fuel root p := by
    induction fuel generalizing root p with
    | zero => rfl
    | succ fuel ih =>
      cases p with
      | none => rfl
      | some p =>
        rw [treePredecessor.loop, treeSuccessor.loop, ih]
        rfl
  cases root with
  | none => rfl
  | some root =>
    simp only [treePredecessor, treeSuccessor, treeMaximum_eq, hloop]
    rfl

theorem Linked.mirror (h : Linked mem t) : Linked mem.mirror (PointerTree.mirror t) where
  children := h.children.mirror
  nodup := by
    rw [inorder_mirror]
    exact List.nodup_reverse.mpr h.nodup
  live a ha := by
    rw [inorder_mirror] at ha
    exact h.live a (List.mem_reverse.mp ha)

/-! ## The successor -/

theorem minimumLoop_head {fuel : ℕ} (h : Children mem.left mem.right (.node a l r))
    (hfuel : l.numNodes < fuel) :
    treeMinimum.loop mem fuel a = (inorder (.node a l r)).head? := by
  induction fuel generalizing a l r with
  | zero => omega
  | succ fuel ih =>
    obtain ⟨hleft, _, hcl, _⟩ := h
    rw [treeMinimum.loop, hleft]
    cases l with
    | nil => rfl
    | node b ll lr =>
      rw [BinaryTree.numNodes] at hfuel
      have hloop := ih hcl (by omega)
      rw [inorder, List.head?_append, ← hloop]
      simp only [top]
      cases hfound : treeMinimum.loop mem fuel b with
      | some s => rfl
      | none =>
        rw [hfound] at hloop
        simp [inorder] at hloop

/-- On the way up, the first node that is left for its left child is behind everything below. -/
theorem climb_spec {fuel : ℕ} (hc : p.Children mem.left mem.right (some a))
    (hp : p.Parents mem.parent) (hn : p.nodes.Nodup) (ha : a ∉ p.nodes)
    (hfuel : p.nodes.length < fuel) :
    treeSuccessor.loop mem fuel a p.owner = some p.after.head? := by
  induction p generalizing a fuel with
  | root =>
    obtain ⟨fuel, rfl⟩ := Nat.exists_eq_add_of_lt hfuel
    rfl
  | left up b r ih =>
    obtain ⟨fuel, rfl⟩ := Nat.exists_eq_add_of_lt hfuel
    have hleft : mem.left b = some a := hc.1
    rw [Path.owner, treeSuccessor.loop, hleft, if_neg (not_not_intro rfl)]
    rfl
  | right up b l ih =>
    obtain ⟨_, hleft, _, hup⟩ := hc
    obtain ⟨hparent, _, hpup⟩ := hp
    have hne : some a ≠ mem.left b := by
      rw [hleft]
      intro htop
      exact ha (Path.mem_nodes_right.mpr (.inr (.inl (mem_inorder_of_top htop.symm))))
    have hlen : up.nodes.length + 1 ≤ (Path.right up b l).nodes.length := by
      simp only [Path.nodes, Path.before, Path.after, List.length_append, List.length_singleton]
      omega
    have hsub : up.nodes.Sublist (Path.right up b l).nodes :=
      (List.sublist_append_left _ _).append (.refl _)
    cases fuel with
    | zero => omega
    | succ fuel =>
      rw [Path.owner, treeSuccessor.loop, if_pos hne, hparent]
      exact ih hup hpup (hn.sublist hsub) (Path.nodup_right hn).2 (by omega)

theorem treeSuccessor_spec (h : Linked mem t) (hp : Parents mem.parent none t)
    (hsplit : inorder t = front ++ n :: back) : treeSuccessor mem (some n) = some back.head? := by
  obtain ⟨p, l, r, rfl⟩ : ∃ (p : Path Address) (l r : BinaryTree Address),
      p.fill (.node n l r) = t := by
    apply Path.exists_fill
    rw [hsplit]
    exact List.mem_append_right _ List.mem_cons_self
  have hnode := h.of_fill
  obtain ⟨hpath, _, hright, _, hcr⟩ := Path.children_fill.mp h.children
  obtain ⟨hpp, hup, _, _⟩ := Path.parents_fill.mp hp
  obtain ⟨hpn, _, hapart⟩ := Path.nodup_fill.mp h.nodup
  have hnp : n ∉ p.nodes := fun hn => hapart n hn (List.mem_append_right _ List.mem_cons_self)
  have hback : back = inorder r ++ p.after := by
    have hnodup := h.nodup
    have horder : inorder (p.fill (.node n l r)) =
        (p.before ++ inorder l) ++ n :: (inorder r ++ p.after) := by
      rw [Path.inorder_fill, inorder]
      simp
    rw [hsplit] at hnodup horder
    have hfront : n ∉ front := fun hn =>
      (List.disjoint_of_nodup_append hnodup) hn List.mem_cons_self
    have hnb : n ∉ back := (List.nodup_cons.mp (List.nodup_append.mp hnodup).2.1).1
    exact ((List.append_cons_inj_of_notMem hfront hnb).mp horder).2.2
  rw [treeSuccessor, hback]
  cases r with
  | nil =>
    have hnone : mem.right n = none := hright
    have hlen : p.nodes.length < mem.live.length + 1 := by
      have hall := h.numNodes_lt
      rw [← length_inorder, (Path.fill_perm p _).length_eq, List.length_append] at hall
      omega
    rw [if_neg (not_not_intro hnone), hup]
    exact climb_spec hpath hpp hpn hnp hlen
  | node b rl rr =>
    have hsome : mem.right n = some b := hright
    have hfuel : rl.numNodes < mem.live.length + 1 := by
      have hall := hnode.numNodes_lt
      simp only [BinaryTree.numNodes] at hall
      omega
    rw [hsome, if_pos (Option.some_ne_none b), treeMinimum, minimumLoop_head hcr hfuel]
    cases hhead : (inorder (.node b rl rr)).head? with
    | none => simp [inorder] at hhead
    | some m =>
      rw [List.head?_append, hhead]
      rfl

theorem treePredecessor_spec (h : Linked mem t) (hp : Parents mem.parent none t)
    (hsplit : inorder t = front ++ n :: back) :
    treePredecessor mem (some n) = some front.getLast? := by
  have hsplit' : inorder (PointerTree.mirror t) = back.reverse ++ n :: front.reverse := by
    rw [inorder_mirror, hsplit]
    simp
  have hparents : Parents mem.mirror.parent none (PointerTree.mirror t) := hp.mirror
  rw [treePredecessor_eq, treeSuccessor_spec h.mirror hparents hsplit', List.head?_reverse]

/-- Both pointers lead to the neighbours, and there and back again. -/
theorem neighbours (mem : Memory) (t : BinaryTree Address) (h : Linked mem t)
    (hp : Parents mem.parent none t) (front : List Address) (n : Address) (back : List Address)
    (hsplit : inorder t = front ++ n :: back) :
    treeSuccessor mem (some n) = some back.head? ∧
    treePredecessor mem (some n) = some front.getLast? ∧
    (∀ m, treeSuccessor mem (some n) = some (some m) →
      treePredecessor mem (some m) = some (some n)) ∧
    ∀ m, treePredecessor mem (some n) = some (some m) →
      treeSuccessor mem (some m) = some (some n) := by
  have hsucc := treeSuccessor_spec h hp hsplit
  have hpred := treePredecessor_spec h hp hsplit
  refine ⟨hsucc, hpred, fun m hm => ?_, fun m hm => ?_⟩
  · obtain ⟨rest, rfl⟩ : ∃ rest, back = m :: rest :=
      List.head?_eq_some_iff.mp (Option.some.inj (hsucc.symm.trans hm))
    have hnext : inorder t = (front ++ [n]) ++ m :: rest := by
      rw [hsplit]
      simp
    rw [treePredecessor_spec h hp hnext, List.getLast?_concat]
  · obtain ⟨rest, rfl⟩ : ∃ rest, front = rest ++ [m] :=
      List.getLast?_eq_some_iff.mp (Option.some.inj (hpred.symm.trans hm))
    have hprev : inorder t = rest ++ m :: (n :: back) := by
      rw [hsplit]
      simp
    rw [treeSuccessor_spec h hp hprev, List.head?_cons]

theorem neighbours_twins :
    treeSuccessor twins (some 0) = some (some 2) ∧
    treePredecessor twins (some 0) = some (some 1) ∧
    (∀ m, treeSuccessor twins (some 0) = some (some m) →
      treePredecessor twins (some m) = some (some 0)) ∧
    ∀ m, treePredecessor twins (some 0) = some (some m) →
      treeSuccessor twins (some m) = some (some 0) :=
  neighbours twins twinsTree linked_twins parents_twins [1] 0 [2] rfl

end InterviewQuestions.Bst

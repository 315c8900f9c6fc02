import InterviewQuestions.Bst.Model
import InterviewQuestions.Library.PointerTree
import Mathlib.Data.List.Perm.Subperm

/-! The loops and the pointer assignments of the tree on a tree of addresses. -/
namespace InterviewQuestions.Bst

open Library Library.PointerTree

variable {mem : Memory} {t : BinaryTree Address} {p : Path Address} {k : Int32}
  {a u : Address} {v up : Option Address}

/-! ## Fields after a write -/

namespace Memory

theorem key_write (n : TreeNode) : (mem.write a n).key = Function.update mem.key a n.key :=
  Function.comp_update TreeNode.key mem.node a n

theorem left_write (n : TreeNode) : (mem.write a n).left = Function.update mem.left a n.left :=
  Function.comp_update TreeNode.left mem.node a n

theorem right_write (n : TreeNode) : (mem.write a n).right = Function.update mem.right a n.right :=
  Function.comp_update TreeNode.right mem.node a n

theorem parent_write (n : TreeNode) :
    (mem.write a n).parent = Function.update mem.parent a n.parent :=
  Function.comp_update TreeNode.parent mem.node a n

@[simp] theorem left_setLeft : (mem.setLeft a v).left = Function.update mem.left a v :=
  left_write _

@[simp] theorem right_setLeft : (mem.setLeft a v).right = mem.right :=
  (right_write _).trans (Function.update_eq_self a mem.right)

@[simp] theorem parent_setLeft : (mem.setLeft a v).parent = mem.parent :=
  (parent_write _).trans (Function.update_eq_self a mem.parent)

@[simp] theorem left_setRight : (mem.setRight a v).left = mem.left :=
  (left_write _).trans (Function.update_eq_self a mem.left)

@[simp] theorem right_setRight : (mem.setRight a v).right = Function.update mem.right a v :=
  right_write _

@[simp] theorem parent_setRight : (mem.setRight a v).parent = mem.parent :=
  (parent_write _).trans (Function.update_eq_self a mem.parent)

@[simp] theorem left_setParent : (mem.setParent a v).left = mem.left :=
  (left_write _).trans (Function.update_eq_self a mem.left)

@[simp] theorem right_setParent : (mem.setParent a v).right = mem.right :=
  (right_write _).trans (Function.update_eq_self a mem.right)

@[simp] theorem parent_setParent : (mem.setParent a v).parent = Function.update mem.parent a v :=
  parent_write _

@[simp] theorem live_setLeft : (mem.setLeft a v).live = mem.live := rfl

@[simp] theorem live_setRight : (mem.setRight a v).live = mem.live := rfl

end Memory

/-- The memory holds a tree of live nodes. -/
structure Linked (mem : Memory) (t : BinaryTree Address) : Prop where
  children : Children mem.left mem.right t
  nodup : (inorder t).Nodup
  live : ∀ a ∈ inorder t, a ∈ mem.live

theorem Linked.numNodes_lt (h : Linked mem t) : t.numNodes < mem.live.length + 1 := by
  rw [← length_inorder]
  exact Nat.lt_succ_of_le (List.subperm_of_subset h.nodup h.live).length_le

/-- The keys 2, 1 and 2, inserted in this order. -/
def twins : Memory where
  node a :=
    if a = 0 then ⟨2, none, some 1, some 2⟩
    else if a = 1 then ⟨1, some 0, none, none⟩
    else ⟨2, some 0, none, none⟩
  live := [2, 1, 0]

/-- Its tree. -/
def twinsTree : BinaryTree Address := .node 0 (.node 1 .nil .nil) (.node 2 .nil .nil)

theorem linked_twins : Linked twins twinsTree where
  children := ⟨rfl, rfl, ⟨rfl, rfl, trivial, trivial⟩, rfl, rfl, trivial, trivial⟩
  nodup := by decide
  live := by decide

theorem parents_twins : Parents twins.parent none twinsTree :=
  ⟨rfl, ⟨rfl, trivial, trivial⟩, rfl, trivial, trivial⟩

theorem Linked.of_fill (h : Linked mem (p.fill t)) : Linked mem t where
  children := (Path.children_fill.mp h.children).2
  nodup := (Path.nodup_fill.mp h.nodup).2.1
  live a ha := h.live a (Path.mem_fill.mpr (Or.inr ha))

/-! ## The searches -/

/-- The hole is on the side of its owner that `k` is searched for. -/
def Goes (mem : Memory) (k : Int32) : Path Address → Prop
  | .root => True
  | .left _ a _ => k < mem.key a
  | .right _ a _ => ¬ k < mem.key a

theorem insertLoop_spec {fuel : ℕ} (h : Children mem.left mem.right (p.fill t))
    (hgoes : Goes mem k p) (hfuel : t.numNodes < fuel) :
    ∃ q : Path Address, q.fill .nil = p.fill t ∧ Goes mem k q ∧
      treeInsert.loop mem k fuel p.owner (top t) = some q.owner := by
  induction fuel generalizing p t with
  | zero => omega
  | succ fuel ih =>
    cases t with
    | nil => exact ⟨p, rfl, hgoes, rfl⟩
    | node a l r =>
      obtain ⟨hleft, hright, _⟩ := (Path.children_fill.mp h).2
      rw [BinaryTree.numNodes] at hfuel
      simp only [top, treeInsert.loop]
      by_cases hk : k < mem.key a
      · rw [if_pos hk, hleft]
        exact ih (p := .left p a r) h hk (by omega)
      · rw [if_neg hk, hright]
        exact ih (p := .right p a l) h hk (by omega)

theorem Linked.insertLoop_spec (h : Linked mem t) (k : Int32) :
    ∃ p : Path Address, p.fill .nil = t ∧ Goes mem k p ∧
      treeInsert.loop mem k (mem.live.length + 1) none (top t) = some p.owner :=
  Bst.insertLoop_spec (p := .root) h.children trivial h.numNodes_lt

theorem findLoop_spec {fuel : ℕ} (h : Children mem.left mem.right (p.fill t))
    (hfuel : t.numNodes < fuel) : treeFind.loop mem k fuel (top t) = some none ∨
      ∃ (q : Path Address) (z : Address) (l r : BinaryTree Address),
        q.fill (.node z l r) = p.fill t ∧
        treeFind.loop mem k fuel (top t) = some (some z) := by
  induction fuel generalizing p t with
  | zero => omega
  | succ fuel ih =>
    cases t with
    | nil => exact Or.inl rfl
    | node a l r =>
      obtain ⟨hleft, hright, _⟩ := (Path.children_fill.mp h).2
      rw [BinaryTree.numNodes] at hfuel
      simp only [top, treeFind.loop]
      by_cases hk : mem.key a = k
      · rw [if_neg (not_not_intro hk)]
        exact Or.inr ⟨p, a, l, r, rfl, rfl⟩
      rw [if_pos hk]
      by_cases hlt : k < mem.key a
      · rw [if_pos hlt, hleft]
        exact ih (p := .left p a r) h (by omega)
      · rw [if_neg hlt, hright]
        exact ih (p := .right p a l) h (by omega)

theorem Linked.treeFind_spec (h : Linked mem t) (k : Int32) :
    treeFind mem (top t) k = some none ∨
      ∃ (q : Path Address) (z : Address) (l r : BinaryTree Address),
        q.fill (.node z l r) = t ∧ treeFind mem (top t) k = some (some z) :=
  findLoop_spec (p := .root) h.children h.numNodes_lt

theorem minimumLoop_spec {fuel : ℕ} {l r : BinaryTree Address}
    (h : Children mem.left mem.right (.node a l r)) (hfuel : l.numNodes < fuel) :
    ∃ (q : Path Address) (s : Address) (sr : BinaryTree Address),
      q.fill (.node s .nil sr) = .node a l r ∧ treeMinimum.loop mem fuel a = some s ∧
      (q.owner = none ↔ l = .nil) := by
  induction fuel generalizing a l r with
  | zero => omega
  | succ fuel ih =>
    obtain ⟨hleft, _, hcl, _⟩ := h
    cases l with
    | nil =>
      rw [treeMinimum.loop, hleft]
      exact ⟨.root, a, r, rfl, rfl, iff_of_true rfl rfl⟩
    | node b ll lr =>
      rw [BinaryTree.numNodes] at hfuel
      obtain ⟨q, s, sr, hfill, hloop, _⟩ := ih hcl (by omega)
      rw [treeMinimum.loop, hleft]
      refine ⟨q.within (.left .root a r), s, sr, ?_, hloop, iff_of_false ?_ fun h => nomatch h⟩
      · rw [Path.fill_within, hfill]
        rfl
      · cases q <;> exact Option.some_ne_none _

theorem Linked.treeMinimum_spec {l r : BinaryTree Address} (h : Linked mem (.node a l r)) :
    ∃ (q : Path Address) (s : Address) (sr : BinaryTree Address),
      q.fill (.node s .nil sr) = .node a l r ∧ treeMinimum mem (some a) = some (some s) ∧
      (q.owner = none ↔ l = .nil) := by
  have hfuel := h.numNodes_lt
  rw [BinaryTree.numNodes] at hfuel
  obtain ⟨q, s, sr, hfill, hloop, hiff⟩ :=
    minimumLoop_spec h.children (show l.numNodes < mem.live.length + 1 by omega)
  exact ⟨q, s, sr, hfill, congrArg (Option.map some) hloop, hiff⟩

/-! ## The assignments -/

/-- `setParentOf` and the end of `transplant`. -/
@[simp] theorem parent_setParentOf :
    (setParentOf mem v up).parent = PointerTree.setParent mem.parent v up := by
  cases v with
  | none => rfl
  | some a => exact Memory.parent_setParent

@[simp] theorem left_setParentOf : (setParentOf mem v up).left = mem.left := by
  cases v with
  | none => rfl
  | some a => exact Memory.left_setParent

@[simp] theorem right_setParentOf : (setParentOf mem v up).right = mem.right := by
  cases v with
  | none => rfl
  | some a => exact Memory.right_setParent

@[simp] theorem live_setParentOf : (setParentOf mem v up).live = mem.live := by
  cases v with
  | none => rfl
  | some a => rfl

/-- What `transplant` writes: the owner of the hole points to `v`, which points back. -/
structure Transplanted (mem : Memory) (p : Path Address) (v : Option Address) (mem' : Memory) :
    Prop where
  left : mem'.left = p.setLeft mem.left v
  right : mem'.right = p.setRight mem.right v
  parent : mem'.parent = PointerTree.setParent mem.parent v p.owner
  live : mem'.live = mem.live

/-- The end of `transplant`, after the child pointer is written. -/
private theorem transplanted {mem' : Memory} (hup : mem.parent u = p.owner)
    (hleft : mem'.left = p.setLeft mem.left v) (hright : mem'.right = p.setRight mem.right v)
    (hparent : mem'.parent = mem.parent) (hlive : mem'.live = mem.live) :
    Transplanted mem p v (setParentOf mem' v (mem'.parent u)) where
  left := left_setParentOf.trans hleft
  right := right_setParentOf.trans hright
  parent := by rw [parent_setParentOf, hparent, hup]
  live := live_setParentOf.trans hlive

theorem transplant_spec (h : p.Children mem.left mem.right (some u)) (hup : mem.parent u = p.owner)
    (hu : u ∉ p.nodes) (v : Option Address) : Transplanted mem p v (transplant mem u v) := by
  simp only [transplant]
  cases p with
  | root =>
    rw [hup]
    exact transplanted hup rfl rfl rfl rfl
  | left up a r =>
    have hleft : mem.left a = some u := h.1
    simp only [hup, Path.owner]
    rw [if_pos hleft.symm]
    exact transplanted hup Memory.left_setLeft Memory.right_setLeft Memory.parent_setLeft rfl
  | right up a l =>
    have hleft : mem.left a = top l := h.2.1
    have hne : some u ≠ mem.left a := by
      rw [hleft]
      intro htop
      exact hu (Path.mem_nodes_right.mpr (Or.inr (Or.inl (mem_inorder_of_top htop.symm))))
    simp only [hup, Path.owner]
    rw [if_neg hne]
    exact transplanted hup Memory.left_setRight Memory.right_setRight Memory.parent_setRight rfl

theorem notMem_destroyTreeNode (mem : Memory) (u : Address) :
    u ∉ (destroyTreeNode mem u).live := by
  simp [destroyTreeNode]

end InterviewQuestions.Bst

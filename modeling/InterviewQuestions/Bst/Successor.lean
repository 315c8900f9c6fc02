import InterviewQuestions.Bst.Pointers

/-! What an insertion and a deletion make of a linked tree. Its parents stay right, but for
a deleted node with two children whose right child is its successor. -/
namespace InterviewQuestions.Bst

open Library Library.PointerTree

variable {mem : Memory} {t : BinaryTree Address} {p : Path Address} {k : Int32} {u : Address}

/-! ## Insertion -/

/-- What a new node without children writes, below `up`. -/
structure Allocated (mem : Memory) (u : Address) (up : Option Address) (mem' : Memory) : Prop where
  key : ∀ a, a ≠ u → mem'.key a = mem.key a
  left : mem'.left = Function.update mem.left u none
  right : mem'.right = Function.update mem.right u none
  parent : mem'.parent = Function.update mem.parent u up
  live : mem'.live = u :: mem.live

theorem newTreeNode_spec (mem : Memory) (u : Address) (k : Int32) (up : Option Address) :
    ∃ mem', newTreeNode mem (some u) k none none up = (mem', some u) ∧
      Allocated mem u up mem' := by
  refine ⟨_, rfl, ?_⟩
  constructor
  · intro a ha
    exact (congrFun (Memory.key_write _) a).trans (Function.update_of_ne ha ..)
  · exact Memory.left_write _
  · exact Memory.right_write _
  · exact Memory.parent_write _
  · rfl

/-- What an insertion writes at the hole it has found. -/
structure Inserted (mem : Memory) (p : Path Address) (u : Address) (mem' : Memory) : Prop where
  left : mem'.left = p.setLeft (Function.update mem.left u none) (some u)
  right : mem'.right = p.setRight (Function.update mem.right u none) (some u)
  parent : mem'.parent = PointerTree.setParent mem.parent (some u) p.owner
  live : mem'.live = u :: mem.live

theorem Linked.notMem_of_dead (h : Linked mem (p.fill t)) (hu : u ∉ mem.live) : u ∉ p.nodes := by
  intro hmem
  apply hu
  apply h.live
  exact Path.mem_fill.mpr (Or.inl hmem)

theorem treeInsert_eq (h : Linked mem t) (hu : u ∉ mem.live) (k : Int32) :
    ∃ (p : Path Address) (mem' : Memory), p.fill .nil = t ∧
      treeInsert mem (top t) k (some u) = some (mem', p.topOf (some u)) ∧
        Inserted mem p u mem' := by
  obtain ⟨p, hfill, hgoes, hloop⟩ := h.insertLoop_spec k
  obtain ⟨mem', hnew, halloc⟩ := newTreeNode_spec mem u k p.owner
  have htop : top t = p.topOf none := by rw [← hfill, Path.top_fill, top]
  have hkey : ∀ a ∈ p.nodes, mem'.key a = mem.key a := by
    intro a ha
    subst hfill
    exact halloc.key a (ne_of_mem_of_not_mem ha (h.notMem_of_dead hu))
  rw [treeInsert, hloop, Option.map_some]
  cases p with
  | root => exact ⟨.root, mem', hfill, congrArg some hnew, halloc.left, halloc.right, halloc.parent,
      halloc.live⟩
  | left up a r =>
    have hlt : k < mem'.key a := hgoes.trans_eq (hkey a (Path.owner_mem rfl)).symm
    refine ⟨.left up a r, mem'.setLeft a (some u), hfill, ?_, ?_⟩
    · simp only [Path.owner] at hnew ⊢
      rw [hnew]
      simp only [if_pos hlt, htop]
      rfl
    · constructor
      · rw [Memory.left_setLeft, halloc.left]
        rfl
      · exact Memory.right_setLeft.trans halloc.right
      · exact Memory.parent_setLeft.trans halloc.parent
      · exact halloc.live
  | right up a l =>
    have hge : ¬ k < mem'.key a := by
      rw [hkey a (Path.owner_mem rfl)]
      exact hgoes
    refine ⟨.right up a l, mem'.setRight a (some u), hfill, ?_, ?_⟩
    · simp only [Path.owner] at hnew ⊢
      rw [hnew]
      simp only [if_neg hge, htop]
      rfl
    · constructor
      · exact Memory.left_setRight.trans halloc.left
      · rw [Memory.right_setRight, halloc.right]
        rfl
      · exact Memory.parent_setRight.trans halloc.parent
      · exact halloc.live

/-- An insertion hangs a new node into the tree. -/
theorem treeInsert_spec (h : Linked mem t) (hp : Parents mem.parent none t) (hu : u ∉ mem.live)
    (k : Int32) : ∃ (t' : BinaryTree Address) (mem' : Memory),
      treeInsert mem (top t) k (some u) = some (mem', top t') ∧ Linked mem' t' ∧
      Parents mem'.parent none t' := by
  obtain ⟨p, mem', rfl, hinsert, hmem⟩ := treeInsert_eq h hu k
  have hdead := h.notMem_of_dead hu
  have hnodup : (inorder (p.fill (.node u .nil .nil))).Nodup := by
    apply Path.nodup_fill.mpr
    refine ⟨(Path.nodup_fill.mp h.nodup).1, by simp [inorder], ?_⟩
    intro a ha hau
    exact hdead (List.mem_singleton.mp hau ▸ ha)
  refine ⟨p.fill (.node u .nil .nil), mem', ?_, ⟨?_, hnodup, ?_⟩, ?_⟩
  · rw [hinsert, Path.top_fill, top]
  · rw [hmem.left, hmem.right]
    have hhole : p.Children (Function.update mem.left u none) (Function.update mem.right u none)
        none := by
      apply (Path.children_fill.mp h.children).1.congr
      · exact fun a ha => Function.update_of_ne (ne_of_mem_of_not_mem ha hdead) ..
      · exact fun a ha => Function.update_of_ne (ne_of_mem_of_not_mem ha hdead) ..
    apply children_plug hhole (t := .node u .nil .nil) _ hnodup
    exact ⟨Function.update_self .., Function.update_self .., trivial, trivial⟩
  · intro a ha
    rw [hmem.live, List.mem_cons]
    cases Path.mem_fill.mp ha with
    | inl ha => exact Or.inr (h.live a (Path.mem_fill.mpr (Or.inl ha)))
    | inr ha => exact Or.inl (List.mem_singleton.mp ha)
  · rw [hmem.parent]
    exact parents_plug (t := .node u .nil .nil) (Path.parents_fill.mp hp).1
      ⟨rfl, trivial, trivial⟩ hnodup

/-! ## Deletion -/

variable {z : Address} {l r : BinaryTree Address}

theorem Transplanted.children {mem' : Memory} (hm : Transplanted mem p (top t) mem')
    {hole : Option Address} (hp : p.Children mem.left mem.right hole)
    (ht : Children mem.left mem.right t) (hn : (inorder (p.fill t)).Nodup) :
    Children mem'.left mem'.right (p.fill t) := by
  rw [hm.left, hm.right]
  exact children_plug hp ht hn

theorem Transplanted.parents {mem' : Memory} (hm : Transplanted mem p (top t) mem')
    {up : Option Address} (hp : p.Parents mem.parent) (ht : Parents mem.parent up t)
    (hn : (inorder (p.fill t)).Nodup) : Parents mem'.parent none (p.fill t) := by
  rw [hm.parent]
  exact parents_plug hp ht hn

/-- The node `z` in the hole can give way to the tree `t`. -/
structure Replaceable (mem : Memory) (p : Path Address) (z : Address) (t : BinaryTree Address) :
    Prop where
  path : p.Children mem.left mem.right (some z)
  up : mem.parent z = p.owner
  children : Children mem.left mem.right t
  nodup : (inorder (p.fill t)).Nodup
  notMem : z ∉ inorder (p.fill t)
  live : ∀ a ∈ inorder (p.fill t), a ∈ mem.live

theorem Replaceable.notMem_path (h : Replaceable mem p z t) : z ∉ p.nodes := fun hz =>
  h.notMem (Path.mem_fill.mpr (Or.inl hz))

theorem Replaceable.transplanted (h : Replaceable mem p z t) :
    Transplanted mem p (top t) (transplant mem z (top t)) :=
  transplant_spec h.path h.up h.notMem_path _

/-- Transplanting the tree and destroying the node. -/
theorem Replaceable.linked (h : Replaceable mem p z t) :
    Linked (destroyTreeNode (transplant mem z (top t)) z) (p.fill t) where
  children := h.transplanted.children h.path h.children h.nodup
  nodup := h.nodup
  live a ha := by
    have hlive : a ∈ (transplant mem z (top t)).live := h.transplanted.live ▸ h.live a ha
    apply List.mem_filter.mpr
    exact ⟨hlive, decide_eq_true (ne_of_mem_of_not_mem ha h.notMem)⟩

theorem Replaceable.parents (h : Replaceable mem p z t) {up : Option Address}
    (hp : p.Parents mem.parent) (ht : Parents mem.parent up t) :
    Parents (destroyTreeNode (transplant mem z (top t)) z).parent none (p.fill t) :=
  h.transplanted.parents hp ht h.nodup

/-- The root changes with the node that has no parent. -/
theorem newroot_eq (p : Path Address) (t t' : BinaryTree Address) :
    (if p.owner = none then top t' else top (p.fill t)) = top (p.fill t') := by
  rw [Path.top_fill, Path.top_fill, Path.topOf_eq p (top t) (top t')]

/-- Replacing a node by a tree of its other nodes. -/
theorem Linked.replaceable (h : Linked mem (p.fill (.node z l r)))
    (hp : Parents mem.parent none (p.fill (.node z l r)))
    (ht : Children mem.left mem.right t)
    (hperm : (inorder (.node z l r)).Perm (z :: inorder t)) : Replaceable mem p z t := by
  have hnodes : (inorder (p.fill (.node z l r))).Perm (z :: inorder (p.fill t)) :=
    calc
      List.Perm _ (p.nodes ++ inorder (.node z l r)) := Path.fill_perm p _
      List.Perm _ (p.nodes ++ z :: inorder t) := hperm.append_left _
      List.Perm _ (z :: (p.nodes ++ inorder t)) := List.perm_middle
      List.Perm _ (z :: inorder (p.fill t)) := (Path.fill_perm p t).symm.cons z
  have hnodup := List.nodup_cons.mp (hnodes.nodup_iff.mp h.nodup)
  constructor
  · exact (Path.children_fill.mp h.children).1
  · exact (Path.parents_fill.mp hp).2.1
  · exact ht
  · exact hnodup.2
  · exact hnodup.1
  · intro a ha
    exact h.live a (hnodes.mem_iff.mpr (List.mem_cons_of_mem z ha))

theorem Replaceable.notMem_tree (h : Replaceable mem p z t) : z ∉ inorder t := fun hz =>
  h.notMem (Path.mem_fill.mpr (Or.inr hz))

/-- The node that gives way keeps its pointers. -/
theorem Replaceable.parent_self (h : Replaceable mem p z t) :
    (transplant mem z (top t)).parent z = p.owner := by
  rw [h.transplanted.parent, setParent_of_notMem h.notMem_tree, h.up]

theorem Replaceable.left_self (h : Replaceable mem p z t) :
    (transplant mem z (top t)).left z = mem.left z := by
  rw [h.transplanted.left, Path.setLeft_of_notMem h.notMem_path]

theorem Replaceable.right_self (h : Replaceable mem p z t) :
    (transplant mem z (top t)).right z = mem.right z := by
  rw [h.transplanted.right, Path.setRight_of_notMem h.notMem_path]

/-- A deleted node without a left child gives way to the tree on its right. -/
theorem delete_no_left (h : Linked mem (p.fill (.node z .nil r)))
    (hp : Parents mem.parent none (p.fill (.node z .nil r))) :
    ∃ mem', treeDeleteInternal mem (top (p.fill (.node z .nil r))) z =
        some (mem', top (p.fill r)) ∧
      Linked mem' (p.fill r) ∧ Parents mem'.parent none (p.fill r) := by
  obtain ⟨hleft, hright, _, hcr⟩ := (Path.children_fill.mp h.children).2
  obtain ⟨hpath, _, _, hpr⟩ := Path.parents_fill.mp hp
  have hrep := h.replaceable hp hcr (perm_node z .nil r)
  refine ⟨_, ?_, hrep.linked, hrep.parents hpath hpr⟩
  rw [treeDeleteInternal, if_pos (show mem.left z = none from hleft)]
  simp only [hright, hrep.parent_self, hrep.right_self, newroot_eq]

/-- One without a right child gives way to the tree on its left. -/
theorem delete_no_right (h : Linked mem (p.fill (.node z l .nil)))
    (hp : Parents mem.parent none (p.fill (.node z l .nil))) (hl : l ≠ .nil) :
    ∃ mem', treeDeleteInternal mem (top (p.fill (.node z l .nil))) z =
        some (mem', top (p.fill l)) ∧
      Linked mem' (p.fill l) ∧ Parents mem'.parent none (p.fill l) := by
  obtain ⟨hleft, hright, hcl, _⟩ := (Path.children_fill.mp h.children).2
  obtain ⟨hpath, _, hpl, _⟩ := Path.parents_fill.mp hp
  have hperm : (inorder (.node z l .nil)).Perm (z :: inorder l) := by
    have hnode := perm_node z l .nil
    rwa [inorder, List.append_nil] at hnode
  have hrep := h.replaceable hp hcl hperm
  refine ⟨_, ?_, hrep.linked, hrep.parents hpath hpl⟩
  rw [treeDeleteInternal, if_neg (by rwa [hleft, top_eq_none_iff]),
    if_pos (show mem.right z = none from hright)]
  simp only [hleft, hrep.parent_self, hrep.left_self, newroot_eq]

end InterviewQuestions.Bst

/-! Deletion of a node with two children. Its successor, the first node of the tree on its
right, takes its place. The branch for a successor that is the right child itself never
writes the parent of the left child. -/
namespace InterviewQuestions.Bst

open Library Library.PointerTree

variable {mem : Memory} {p q : Path Address} {z s : Address} {l r sr : BinaryTree Address}

/-- Deletion of a node with two children, once its successor is found. -/
theorem treeDeleteInternal_eq (hleft : mem.left z ≠ none) {root : Option Address}
    (hmin : treeMinimum mem (mem.right z) = some (some s)) :
    treeDeleteInternal mem root z = some (destroyTreeNode (replaceBySuccessor mem z s) z,
      if (replaceBySuccessor mem z s).parent s = none then some s else root) := by
  have hright : mem.right z ≠ none := by
    intro hnone
    rw [hnone] at hmin
    cases hmin
  rw [treeDeleteInternal, if_neg hleft, if_neg hright, hmin]

/-- The successor in the place of the deleted node. -/
theorem perm_successor (p q : Path Address) (z s : Address) (l sr : BinaryTree Address) :
    (inorder (p.fill (.node z l (q.fill (.node s .nil sr))))).Perm
      (z :: inorder (p.fill (.node s l (q.fill sr)))) :=
  have hright : (inorder (q.fill (.node s .nil sr))).Perm (s :: inorder (q.fill sr)) :=
    calc
      List.Perm _ (q.nodes ++ s :: inorder sr) := Path.fill_perm q _
      List.Perm _ (s :: (q.nodes ++ inorder sr)) := List.perm_middle
      List.Perm _ (s :: inorder (q.fill sr)) := (Path.fill_perm q sr).symm.cons s
  have hnode : (inorder (.node z l (q.fill (.node s .nil sr)))).Perm
      (z :: inorder (.node s l (q.fill sr))) :=
    calc
      List.Perm _ (z :: (inorder l ++ inorder (q.fill (.node s .nil sr)))) := perm_node z l _
      List.Perm _ (z :: (inorder l ++ s :: inorder (q.fill sr))) := (hright.append_left _).cons z
  calc
    List.Perm _ (p.nodes ++ inorder (.node z l (q.fill (.node s .nil sr)))) := Path.fill_perm p _
    List.Perm _ (p.nodes ++ z :: inorder (.node s l (q.fill sr))) := hnode.append_left _
    List.Perm _ (z :: (p.nodes ++ inorder (.node s l (q.fill sr)))) := List.perm_middle
    List.Perm _ (z :: inorder (p.fill (.node s l (q.fill sr)))) := (Path.fill_perm p _).symm.cons z

/-- The memory `mem'` after the successor `s` has got the children of `z`, except for their
parents. -/
structure Hung (mem : Memory) (p : Path Address) (z s : Address) (l r : BinaryTree Address)
    (mem' : Memory) : Prop where
  left : mem'.left = Function.update mem.left s (top l)
  right : mem'.right = Function.update mem.right s (top r)
  up : mem'.parent z = p.owner
  live : mem'.live = mem.live

theorem Hung.replaceable {mem' : Memory} (hm : Hung mem p z s l r mem')
    (hp : p.Children mem.left mem.right (some z)) (hl : Children mem.left mem.right l)
    (hr : Children mem.left mem.right r) (hnodup : (inorder (p.fill (.node s l r))).Nodup)
    (hz : z ∉ inorder (p.fill (.node s l r)))
    (hlive : ∀ a ∈ inorder (p.fill (.node s l r)), a ∈ mem.live) :
    Replaceable mem' p z (.node s l r) := by
  obtain ⟨_, hnode, hdisjoint⟩ := Path.nodup_fill.mp hnodup
  obtain ⟨⟨hsl, hsr⟩, _⟩ := nodup_node.mp hnode
  have hsp : s ∉ p.nodes := fun hs =>
    hdisjoint s hs (List.mem_append_right _ List.mem_cons_self)
  have hother : ∀ {nodes : List Address}, s ∉ nodes → ∀ (f : Address → Option Address)
      (v : Option Address), ∀ a ∈ nodes, Function.update f s v a = f a :=
    fun hs f v a ha => Function.update_of_ne (ne_of_mem_of_not_mem ha hs) v f
  refine ⟨?_, hm.up, ?_, hnodup, hz, fun a ha => hm.live ▸ hlive a ha⟩
  · rw [hm.left, hm.right]
    exact hp.congr (hother hsp _ _) (hother hsp _ _)
  · rw [hm.left, hm.right]
    refine ⟨Function.update_self .., Function.update_self .., ?_, ?_⟩
    · exact hl.congr (hother hsl _ _) (hother hsl _ _)
    · exact hr.congr (hother hsr _ _) (hother hsr _ _)

/-- The last steps of both branches. -/
theorem treeDeleteInternal_hung {mem' : Memory} {t : BinaryTree Address}
    (hrep : Replaceable mem' p z (.node s l r)) (hleft : mem.left z ≠ none)
    (hmin : treeMinimum mem (mem.right z) = some (some s))
    (heq : replaceBySuccessor mem z s = transplant mem' z (top (.node s l r))) :
    treeDeleteInternal mem (top (p.fill t)) z =
      some (destroyTreeNode (transplant mem' z (top (.node s l r))) z,
        top (p.fill (.node s l r))) := by
  have hparent : (transplant mem' z (top (.node s l r))).parent s = p.owner := by
    rw [hrep.transplanted.parent]
    exact setParent_self
  rw [treeDeleteInternal_eq hleft hmin, heq, hparent]
  exact congrArg (fun root => some (_, root)) (newroot_eq p t (.node s l r))

/-! ## The right child is the successor -/

theorem delete_child_successor (h : Linked mem (p.fill (.node z l (.node s .nil sr))))
    (hp : Parents mem.parent none (p.fill (.node z l (.node s .nil sr)))) (hl : l ≠ .nil)
    (hmin : treeMinimum mem (mem.right z) = some (some s)) :
    ∃ mem', treeDeleteInternal mem (top (p.fill (.node z l (.node s .nil sr)))) z =
        some (mem', top (p.fill (.node s l sr))) ∧
      Linked mem' (p.fill (.node s l sr)) ∧ z ∉ mem'.live ∧
      ∀ a, a ≠ s → mem'.parent a = mem.parent a := by
  obtain ⟨hpath, hleft, hright, hcl, _, hsr, _, hcr⟩ := Path.children_fill.mp h.children
  have hperm := perm_successor p .root z s l sr
  have hnodup := List.nodup_cons.mp (hperm.nodup_iff.mp h.nodup)
  have hhung : Hung mem p z s l sr (mem.setLeft s (mem.left z)) := by
    constructor
    · rw [Memory.left_setLeft, hleft]
    · rw [Memory.right_setLeft, ← hsr, Function.update_eq_self]
    · rw [Memory.parent_setLeft]
      exact (Path.parents_fill.mp hp).2.1
    · rfl
  have hrep := hhung.replaceable hpath hcl hcr hnodup.2 hnodup.1 fun a ha =>
    h.live a (hperm.mem_iff.mpr (List.mem_cons_of_mem z ha))
  have heq : replaceBySuccessor mem z s =
      transplant (mem.setLeft s (mem.left z)) z (top (.node s l sr)) := by
    rw [replaceBySuccessor, if_pos (show some s = mem.right z from hright.symm)]
    rfl
  refine ⟨_, treeDeleteInternal_hung hrep ?_ hmin heq, hrep.linked, ?_, ?_⟩
  · rwa [hleft, Ne, top_eq_none_iff]
  · exact notMem_destroyTreeNode _ z
  · intro a ha
    have hsame : (transplant (mem.setLeft s (mem.left z)) z (top (.node s l sr))).parent a =
        (mem.setLeft s (mem.left z)).parent a := by
      rw [hrep.transplanted.parent]
      exact setParent_of_ne fun hs => ha (Option.some.inj hs).symm
    exact hsame.trans (congrFun Memory.parent_setLeft a)

/-! ## The successor is deeper -/

/-- The successor is first taken out of the tree: what is on its right fills its place. -/
theorem successor_out (h : Linked mem (p.fill (.node z l (q.fill (.node s .nil sr)))))
    (hp : Parents mem.parent none (p.fill (.node z l (q.fill (.node s .nil sr))))) :
    Linked (transplant mem s (mem.right s)) (p.fill (.node z l (q.fill sr))) ∧
      Parents (transplant mem s (mem.right s)).parent none (p.fill (.node z l (q.fill sr))) ∧
      (transplant mem s (mem.right s)).live = mem.live := by
  have hpath : ∀ t : BinaryTree Address,
      (q.within (.right p z l)).fill t = p.fill (.node z l (q.fill t)) := Path.fill_within q _
  rw [← hpath] at h hp
  rw [← hpath]
  obtain ⟨_, _, hright, _, hcr⟩ := Path.children_fill.mp h.children
  obtain ⟨hpaths, _, _, hpr⟩ := Path.parents_fill.mp hp
  have hout := h.replaceable hp hcr (List.Perm.refl _)
  have hlive := hout.transplanted.live
  rw [hright]
  refine ⟨⟨?_, hout.nodup, ?_⟩, ?_, hlive⟩
  · exact hout.transplanted.children hout.path hcr hout.nodup
  · rw [hlive]
    exact hout.live
  · exact hout.transplanted.parents hpaths hpr hout.nodup

/-- It then gets the children of `z`, and these get it for their parent. -/
def hang (mem : Memory) (s : Address) (l r : BinaryTree Address) : Memory :=
  setParentOf (setParentOf ((mem.setRight s (top r)).setLeft s (top l)) (top r) (some s))
    (top l) (some s)

theorem parent_hang : (hang mem s l r).parent = PointerTree.setParent
    (PointerTree.setParent mem.parent (top r) (some s)) (top l) (some s) := by
  simp only [hang, parent_setParentOf, Memory.parent_setLeft, Memory.parent_setRight]

theorem parent_hang_of_notMem {a : Address} (hal : a ∉ inorder l) (har : a ∉ inorder r) :
    (hang mem s l r).parent a = mem.parent a := by
  rw [parent_hang, setParent_of_notMem hal, setParent_of_notMem har]

theorem hang_hung (h : Linked mem (p.fill (.node z l r)))
    (hp : Parents mem.parent none (p.fill (.node z l r))) :
    Hung mem p z s l r (hang mem s l r) := by
  obtain ⟨⟨hzl, hzr⟩, _⟩ := nodup_node.mp (Path.nodup_fill.mp h.nodup).2.1
  constructor
  · simp only [hang, left_setParentOf, Memory.left_setLeft, Memory.left_setRight]
  · simp only [hang, right_setParentOf, Memory.right_setLeft, Memory.right_setRight]
  · rw [parent_hang_of_notMem hzl hzr]
    exact (Path.parents_fill.mp hp).2.1
  · simp only [hang, live_setParentOf, Memory.live_setLeft, Memory.live_setRight]

/-- Both trees point up to the successor, and around them nothing has changed. -/
theorem hang_parents (h : Linked mem (p.fill (.node z l r)))
    (hp : Parents mem.parent none (p.fill (.node z l r))) :
    p.Parents (hang mem s l r).parent ∧
      Parents (hang mem s l r).parent ((hang mem s l r).parent s) (.node s l r) := by
  obtain ⟨hpp, _, hpl, hpr⟩ := Path.parents_fill.mp hp
  obtain ⟨_, hnode, hapart⟩ := Path.nodup_fill.mp h.nodup
  obtain ⟨_, hln, hrn, hdisjoint⟩ := nodup_node.mp hnode
  refine ⟨?_, rfl, ?_, ?_⟩
  · apply hpp.congr
    intro a ha
    apply parent_hang_of_notMem
    · exact fun hal => hapart a ha (List.mem_append_left _ hal)
    · exact fun har => hapart a ha (List.mem_append_right _ (List.mem_cons_of_mem z har))
  · have hpl' : Parents (PointerTree.setParent mem.parent (top r) (some s)) (some z) l :=
      hpl.congr fun a ha => setParent_of_notMem (hdisjoint a ha)
    rw [parent_hang]
    exact hpl'.setParent hln (some s)
  · rw [parent_hang]
    apply (hpr.setParent hrn (some s)).congr
    exact fun a ha => setParent_of_notMem fun hal => hdisjoint a hal ha

theorem delete_deep_successor
    (h : Linked mem (p.fill (.node z l (q.fill (.node s .nil sr)))))
    (hp : Parents mem.parent none (p.fill (.node z l (q.fill (.node s .nil sr)))))
    (hl : l ≠ .nil) (hq : q.owner ≠ none)
    (hmin : treeMinimum mem (mem.right z) = some (some s)) :
    ∃ mem', treeDeleteInternal mem (top (p.fill (.node z l (q.fill (.node s .nil sr))))) z =
        some (mem', top (p.fill (.node s l (q.fill sr)))) ∧
      Linked mem' (p.fill (.node s l (q.fill sr))) ∧
      Parents mem'.parent none (p.fill (.node s l (q.fill sr))) := by
  obtain ⟨_, hleft, hright, _, _⟩ := Path.children_fill.mp h.children
  have hperm := perm_successor p q z s l sr
  have hnodup := List.nodup_cons.mp (hperm.nodup_iff.mp h.nodup)
  obtain ⟨hout, houtParents, houtLive⟩ := successor_out h hp
  generalize hmem : transplant mem s (mem.right s) = mem₁ at hout houtParents houtLive
  obtain ⟨hpath, hleft', hright', hcl, hcr⟩ := Path.children_fill.mp hout.children
  have hrep := (hang_hung (s := s) hout houtParents).replaceable hpath hcl hcr hnodup.2 hnodup.1
    fun a ha => houtLive ▸ h.live a (hperm.mem_iff.mpr (List.mem_cons_of_mem z ha))
  have hdeep : some s ≠ mem.right z := by
    intro hs
    rw [hright, Path.top_fill] at hs
    have hnode := (nodup_node.mp (Path.nodup_fill.mp h.nodup).2.1).2.2.1
    exact (Path.nodup_fill.mp hnode).2.2 s (Path.topOf_mem hq hs.symm)
      (List.mem_append_right _ List.mem_cons_self)
  have heq : replaceBySuccessor mem z s =
      transplant (hang mem₁ s l (q.fill sr)) z (top (.node s l (q.fill sr))) := by
    simp only [replaceBySuccessor, if_neg hdeep, hmem, hright', hleft', hang, left_setParentOf,
      Memory.left_setRight, Memory.left_setLeft, Memory.right_setLeft, Memory.right_setRight,
      Function.update_self]
    rfl
  have hparents := hang_parents (s := s) hout houtParents
  refine ⟨_, treeDeleteInternal_hung hrep ?_ hmin heq, hrep.linked,
    hrep.parents hparents.1 hparents.2⟩
  rwa [hleft, Ne, top_eq_none_iff]

end InterviewQuestions.Bst

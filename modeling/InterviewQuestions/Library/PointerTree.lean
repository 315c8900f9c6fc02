import Mathlib.Data.List.Perm.Basic
import Mathlib.Data.Tree.Basic
import Mathlib.Logic.Function.Basic

/-! Binary trees in memory: the `left`, `right` and `parent` fields of every node. The
children and the parents of a tree are told apart, so that one can be right without the
other. A path is a tree with a hole, where a subtree is taken out and another put in. -/
namespace InterviewQuestions.Library.PointerTree

variable {α : Type*} {left right parent left' right' parent' : α → Option α}
  {t : BinaryTree α} {a b c : α} {hole up v : Option α}

/-- The nodes from left to right. -/
def inorder : BinaryTree α → List α
  | .nil => []
  | .node a l r => inorder l ++ a :: inorder r

/-- Every node before those of its two subtrees. -/
def preorder : BinaryTree α → List α
  | .nil => []
  | .node a l r => a :: (preorder l ++ preorder r)

/-- The pointer to a tree. -/
def top : BinaryTree α → Option α
  | .nil => none
  | .node a _ _ => some a

/-- Every node points to its two subtrees. -/
def Children (left right : α → Option α) : BinaryTree α → Prop
  | .nil => True
  | .node a l r => left a = top l ∧ right a = top r ∧ Children left right l ∧ Children left right r

/-- The first node points up to `up` and every other node to the one it is a child of. -/
def Parents (parent : α → Option α) : Option α → BinaryTree α → Prop
  | _, .nil => True
  | up, .node a l r => parent a = up ∧ Parents parent (some a) l ∧ Parents parent (some a) r

theorem mem_inorder_of_top (h : top t = some a) : a ∈ inorder t := by
  cases t with
  | nil => cases h
  | node b l r =>
    cases h
    exact List.mem_append_right _ List.mem_cons_self

theorem top_eq_none_iff : top t = none ↔ t = .nil := by
  cases t with
  | nil => exact iff_of_true rfl rfl
  | node a l r => exact iff_of_false (Option.some_ne_none a) fun h => nomatch h

theorem length_inorder (t : BinaryTree α) : (inorder t).length = t.numNodes := by
  induction t with
  | nil => rfl
  | node a l r ihl ihr =>
    rw [inorder, List.length_append, List.length_cons, ihl, ihr, BinaryTree.numNodes]
    omega

theorem length_preorder (t : BinaryTree α) : (preorder t).length = t.numNodes := by
  induction t with
  | nil => rfl
  | node a l r ihl ihr =>
    rw [preorder, List.length_cons, List.length_append, ihl, ihr, BinaryTree.numNodes]

theorem perm_node (a : α) (l r : BinaryTree α) :
    (inorder (.node a l r)).Perm (a :: (inorder l ++ inorder r)) := List.perm_middle

/-- The parts of a tree without repeated nodes. -/
theorem nodup_node {l r : BinaryTree α} : (inorder (.node a l r)).Nodup ↔
    (a ∉ inorder l ∧ a ∉ inorder r) ∧ (inorder l).Nodup ∧ (inorder r).Nodup ∧
      ∀ b ∈ inorder l, b ∉ inorder r := by
  rw [(perm_node a l r).nodup_iff, List.nodup_cons, List.mem_append, not_or, List.nodup_append]
  refine and_congr_right fun _ => and_congr_right fun _ => and_congr_right fun _ => ?_
  exact ⟨fun h b hb hbr => h b hb b hbr rfl, fun h b hb c hc hbc => h b hb (hbc ▸ hc)⟩

theorem Children.congr (h : Children left right t) (hl : ∀ a ∈ inorder t, left' a = left a)
    (hr : ∀ a ∈ inorder t, right' a = right a) : Children left' right' t := by
  induction t with
  | nil => trivial
  | node a l r ihl ihr =>
    simp only [inorder, List.mem_append, List.mem_cons] at hl hr
    obtain ⟨hleft, hright, hcl, hcr⟩ := h
    refine ⟨?_, ?_, ?_, ?_⟩
    · rw [hl a (Or.inr (Or.inl rfl)), hleft]
    · rw [hr a (Or.inr (Or.inl rfl)), hright]
    · exact ihl hcl (fun b hb => hl b (Or.inl hb)) fun b hb => hr b (Or.inl hb)
    · exact ihr hcr (fun b hb => hl b (Or.inr (Or.inr hb))) fun b hb => hr b (Or.inr (Or.inr hb))

theorem Parents.congr (h : Parents parent up t) (hp : ∀ a ∈ inorder t, parent' a = parent a) :
    Parents parent' up t := by
  induction t generalizing up with
  | nil => trivial
  | node a l r ihl ihr =>
    simp only [inorder, List.mem_append, List.mem_cons] at hp
    obtain ⟨hparent, hpl, hpr⟩ := h
    refine ⟨?_, ?_, ?_⟩
    · rw [hp a (Or.inr (Or.inl rfl)), hparent]
    · exact ihl hpl fun b hb => hp b (Or.inl hb)
    · exact ihr hpr fun b hb => hp b (Or.inr (Or.inr hb))

/-- The tree with left and right exchanged. -/
def mirror : BinaryTree α → BinaryTree α
  | .nil => .nil
  | .node a l r => .node a (mirror r) (mirror l)

theorem inorder_mirror (t : BinaryTree α) : inorder (mirror t) = (inorder t).reverse := by
  induction t with
  | nil => rfl
  | node a l r ihl ihr =>
    rw [mirror, inorder, inorder, ihl, ihr, List.reverse_append, List.reverse_cons]
    simp

theorem top_mirror (t : BinaryTree α) : top (mirror t) = top t := by
  cases t with
  | nil => rfl
  | node a l r => rfl

theorem Children.mirror (h : Children left right t) :
    Children right left (PointerTree.mirror t) := by
  induction t with
  | nil => trivial
  | node a l r ihl ihr =>
    obtain ⟨hleft, hright, hcl, hcr⟩ := h
    exact ⟨hright.trans (top_mirror r).symm, hleft.trans (top_mirror l).symm, ihr hcr, ihl hcl⟩

theorem Parents.mirror (h : Parents parent up t) : Parents parent up (PointerTree.mirror t) := by
  induction t generalizing up with
  | nil => trivial
  | node a l r ihl ihr =>
    obtain ⟨hparent, hpl, hpr⟩ := h
    exact ⟨hparent, ihr hpr, ihl hpl⟩

/-- What is stored at the nodes of a tree. -/
theorem map_congr_inorder {β : Type*} {f g : α → β} (h : ∀ a ∈ inorder t, g a = f a) :
    t.map g = t.map f := by
  induction t with
  | nil => rfl
  | node a l r ihl ihr =>
    simp only [inorder, List.mem_append, List.mem_cons] at h
    rw [BinaryTree.map, BinaryTree.map, h a (.inr (.inl rfl)), ihl fun b hb => h b (.inl hb),
      ihr fun b hb => h b (.inr (.inr hb))]

theorem map_update_of_notMem [DecidableEq α] {β : Type*} {f : α → β} {a : α} (ha : a ∉ inorder t)
    (b : β) : t.map (Function.update f a b) = t.map f :=
  map_congr_inorder fun _ hc => Function.update_of_ne (ne_of_mem_of_not_mem hc ha) ..

/-! ## What can be reached -/

/-- The nodes reached from a pointer through the children. -/
inductive Reachable (left right : α → Option α) (root : Option α) : α → Prop
  | root {a : α} (h : root = some a) : Reachable left right root a
  | left {a c : α} (h : Reachable left right root a) (hc : left a = some c) :
      Reachable left right root c
  | right {a c : α} (h : Reachable left right root a) (hc : right a = some c) :
      Reachable left right root c

theorem Children.child_mem (h : Children left right t) (ha : a ∈ inorder t)
    (hc : left a = some c ∨ right a = some c) : c ∈ inorder t := by
  induction t with
  | nil => cases ha
  | node b l r ihl ihr =>
    obtain ⟨hleft, hright, hcl, hcr⟩ := h
    simp only [inorder, List.mem_append, List.mem_cons] at ha ⊢
    rcases ha with ha | rfl | ha
    · exact Or.inl (ihl hcl ha)
    · rw [hleft, hright] at hc
      cases hc with
      | inl hc => exact Or.inl (mem_inorder_of_top hc)
      | inr hc => exact Or.inr (Or.inr (mem_inorder_of_top hc))
    · exact Or.inr (Or.inr (ihr hcr ha))

theorem Parents.of_top (h : Parents parent up t) (ha : top t = some a) : parent a = up := by
  cases t with
  | nil => cases ha
  | node b l r =>
    cases ha
    exact h.1

/-- Parents point back to where the children come from. -/
theorem Parents.child (h : Parents parent up t) (hch : Children left right t) (ha : a ∈ inorder t)
    (hc : left a = some c ∨ right a = some c) : parent c = some a := by
  induction t generalizing up with
  | nil => cases ha
  | node b l r ihl ihr =>
    obtain ⟨hleft, hright, hcl, hcr⟩ := hch
    simp only [inorder, List.mem_append, List.mem_cons] at ha
    rcases ha with ha | rfl | ha
    · exact ihl h.2.1 hcl ha
    · rw [hleft, hright] at hc
      cases hc with
      | inl hc => exact h.2.1.of_top hc
      | inr hc => exact h.2.2.of_top hc
    · exact ihr h.2.2 hcr ha

theorem Parents.parent_mem (h : Parents parent up t) (ha : a ∈ inorder t) {b : α}
    (hb : parent a = some b) : up = some b ∨ b ∈ inorder t := by
  induction t generalizing up with
  | nil => cases ha
  | node d l r ihl ihr =>
    simp only [inorder, List.mem_append, List.mem_cons] at ha ⊢
    rcases ha with ha | rfl | ha
    · cases ihl h.2.1 ha with
      | inl hd => exact Or.inr (Or.inr (Or.inl (Option.some.inj hd).symm))
      | inr hmem => exact Or.inr (Or.inl hmem)
    · exact Or.inl (h.1.symm.trans hb)
    · cases ihr h.2.2 ha with
      | inl hd => exact Or.inr (Or.inr (Or.inl (Option.some.inj hd).symm))
      | inr hmem => exact Or.inr (Or.inr (Or.inr hmem))

theorem Children.mem_of_reachable (h : Children left right t)
    (ha : Reachable left right (top t) a) : a ∈ inorder t := by
  induction ha with
  | root hroot => exact mem_inorder_of_top hroot
  | left _ hc ih => exact h.child_mem ih (Or.inl hc)
  | right _ hc ih => exact h.child_mem ih (Or.inr hc)

/-- From what a tree is reached, its nodes are. -/
theorem Children.reachable (h : Children left right t) {root : Option α}
    (hroot : ∀ b, top t = some b → Reachable left right root b) (ha : a ∈ inorder t) :
    Reachable left right root a := by
  induction t with
  | nil => cases ha
  | node b l r ihl ihr =>
    obtain ⟨hleft, hright, hcl, hcr⟩ := h
    have hb := hroot b rfl
    simp only [inorder, List.mem_append, List.mem_cons] at ha
    rcases ha with ha | rfl | ha
    · exact ihl hcl (fun c hc => hb.left (hleft.trans hc)) ha
    · exact hb
    · exact ihr hcr (fun c hc => hb.right (hright.trans hc)) ha

/-! ## Trees with a hole -/

/-- The way from the hole up to the root: which child each node is left for, the node, and its
other subtree. -/
inductive Path (α : Type*) where
  | root
  | left (up : Path α) (a : α) (r : BinaryTree α)
  | right (up : Path α) (a : α) (l : BinaryTree α)

namespace Path

/-- The tree put in the hole. -/
def fill : Path α → BinaryTree α → BinaryTree α
  | .root, t => t
  | .left up a r, t => up.fill (.node a t r)
  | .right up a l, t => up.fill (.node a l t)

/-- The node right above the hole. -/
def owner : Path α → Option α
  | .root => none
  | .left _ a _ => some a
  | .right _ a _ => some a

def before : Path α → List α
  | .root => []
  | .left up _ _ => up.before
  | .right up a l => up.before ++ (inorder l ++ [a])

def after : Path α → List α
  | .root => []
  | .left up a r => a :: inorder r ++ up.after
  | .right up _ _ => up.after

/-- The pointer to the whole tree, where `hole` is the pointer to the tree in the hole. -/
def topOf : Path α → Option α → Option α
  | .root, hole => hole
  | .left up a _, _ => up.topOf (some a)
  | .right up a _, _ => up.topOf (some a)

/-- The path `p` continued by the way up `q`. -/
def within : Path α → Path α → Path α
  | .root, q => q
  | .left up a r, q => .left (up.within q) a r
  | .right up a l, q => .right (up.within q) a l

def Children (left right : α → Option α) : Path α → Option α → Prop
  | .root, _ => True
  | .left up a r, hole =>
      left a = hole ∧ right a = top r ∧ PointerTree.Children left right r ∧
        up.Children left right (some a)
  | .right up a l, hole =>
      right a = hole ∧ left a = top l ∧ PointerTree.Children left right l ∧
        up.Children left right (some a)

def Parents (parent : α → Option α) : Path α → Prop
  | .root => True
  | .left up a r => parent a = up.owner ∧ PointerTree.Parents parent (some a) r ∧ up.Parents parent
  | .right up a l => parent a = up.owner ∧ PointerTree.Parents parent (some a) l ∧ up.Parents parent

variable {p q : Path α}

theorem inorder_fill (p : Path α) (t : BinaryTree α) :
    inorder (p.fill t) = p.before ++ inorder t ++ p.after := by
  induction p generalizing t with
  | root => simp [fill, before, after]
  | left up a r ih => simp [fill, before, after, ih, inorder]
  | right up a l ih => simp [fill, before, after, ih, inorder]

/-- A tree is left with a hole where one of its nodes is. -/
theorem exists_fill (h : a ∈ inorder t) : ∃ (p : Path α) (l r : BinaryTree α),
    p.fill (.node a l r) = t := by
  suffices hpath : ∀ q : Path α, ∃ (p : Path α) (l r : BinaryTree α),
      p.fill (.node a l r) = q.fill t from hpath .root
  induction t with
  | nil => cases h
  | node b l r ihl ihr =>
    intro q
    rcases List.mem_append.mp h with h | h
    · exact ihl h (.left q b r)
    · rcases List.mem_cons.mp h with rfl | h
      · exact ⟨q, l, r, rfl⟩
      · exact ihr h (.right q b l)

theorem top_fill (p : Path α) (t : BinaryTree α) : top (p.fill t) = p.topOf (top t) := by
  induction p generalizing t with
  | root => rfl
  | left up a r ih => exact ih _
  | right up a l ih => exact ih _

theorem fill_within (p q : Path α) (t : BinaryTree α) :
    (p.within q).fill t = q.fill (p.fill t) := by
  induction p generalizing t with
  | root => rfl
  | left up a r ih => exact ih _
  | right up a l ih => exact ih _

theorem owner_within (p q : Path α) : (p.within q).owner = p.owner.or q.owner := by
  cases p with
  | root => rfl
  | left up a r => rfl
  | right up a l => rfl

theorem children_fill : PointerTree.Children left right (p.fill t) ↔
    p.Children left right (top t) ∧ PointerTree.Children left right t := by
  induction p generalizing t with
  | root => exact (iff_of_eq (true_and _)).symm
  | left up a r ih =>
    rw [fill, ih]
    simp only [Children, PointerTree.Children, top]
    tauto
  | right up a l ih =>
    rw [fill, ih]
    simp only [Children, PointerTree.Children, top]
    tauto

theorem parents_fill : PointerTree.Parents parent none (p.fill t) ↔
    p.Parents parent ∧ PointerTree.Parents parent p.owner t := by
  induction p generalizing t with
  | root => exact (iff_of_eq (true_and _)).symm
  | left up a r ih =>
    rw [fill, ih]
    simp only [Parents, PointerTree.Parents, owner]
    tauto
  | right up a l ih =>
    rw [fill, ih]
    simp only [Parents, PointerTree.Parents, owner]
    tauto

/-- The nodes around the hole. -/
def nodes (p : Path α) : List α := p.before ++ p.after

theorem fill_perm (p : Path α) (t : BinaryTree α) :
    (inorder (p.fill t)).Perm (p.nodes ++ inorder t) := by
  rw [inorder_fill, nodes, List.append_assoc, List.append_assoc]
  exact List.perm_append_comm.append_left _

theorem mem_fill : a ∈ inorder (p.fill t) ↔ a ∈ p.nodes ∨ a ∈ inorder t :=
  (fill_perm p t).mem_iff.trans List.mem_append

theorem mem_nodes_left {up : Path α} {r : BinaryTree α} :
    c ∈ (Path.left up a r).nodes ↔ c = a ∨ c ∈ inorder r ∨ c ∈ up.nodes := by
  simp only [nodes, before, after, List.mem_append, List.mem_cons]
  tauto

theorem mem_nodes_right {up : Path α} {l : BinaryTree α} :
    c ∈ (Path.right up a l).nodes ↔ c = a ∨ c ∈ inorder l ∨ c ∈ up.nodes := by
  simp only [nodes, before, after, List.mem_append, List.mem_cons, List.not_mem_nil, or_false]
  tauto

theorem owner_mem (h : p.owner = some a) : a ∈ p.nodes := by
  cases p with
  | root => cases h
  | left up b r =>
    cases h
    exact mem_nodes_left.mpr (Or.inl rfl)
  | right up b l =>
    cases h
    exact mem_nodes_right.mpr (Or.inl rfl)

/-- The root of a tree is what fills the hole, or lies on the way up. -/
theorem topOf_some {b : α} (ha : p.topOf (some b) = some a) : a = b ∨ a ∈ p.nodes := by
  induction p generalizing b with
  | root => exact Or.inl (Option.some.inj ha).symm
  | left up c r ih => exact Or.inr (mem_nodes_left.mpr ((ih ha).imp_right Or.inr))
  | right up c l ih => exact Or.inr (mem_nodes_right.mpr ((ih ha).imp_right Or.inr))

/-- With a hole below the root, it lies on the way up. -/
theorem topOf_mem (hp : p.owner ≠ none) (ha : p.topOf hole = some a) : a ∈ p.nodes := by
  cases p with
  | root => exact absurd rfl hp
  | left up c r => exact mem_nodes_left.mpr ((topOf_some ha).imp_right Or.inr)
  | right up c l => exact mem_nodes_right.mpr ((topOf_some ha).imp_right Or.inr)

theorem nodup_fill : (inorder (p.fill t)).Nodup ↔
    p.nodes.Nodup ∧ (inorder t).Nodup ∧ ∀ a ∈ p.nodes, a ∉ inorder t := by
  rw [(fill_perm p t).nodup_iff, List.nodup_append]
  refine and_congr_right fun _ => and_congr_right fun _ => ?_
  exact ⟨fun h a ha hat => h a ha a hat rfl, fun h a ha b hb hab => h a ha (hab ▸ hb)⟩

theorem Children.congr (h : p.Children left right hole) (hl : ∀ a ∈ p.nodes, left' a = left a)
    (hr : ∀ a ∈ p.nodes, right' a = right a) : p.Children left' right' hole := by
  induction p generalizing hole with
  | root => trivial
  | left up a r ih =>
    simp only [mem_nodes_left] at hl hr
    obtain ⟨hleft, hright, hcr, hup⟩ := h
    refine ⟨?_, ?_, ?_, ?_⟩
    · rw [hl a (Or.inl rfl), hleft]
    · rw [hr a (Or.inl rfl), hright]
    · exact hcr.congr (fun b hb => hl b (Or.inr (Or.inl hb))) fun b hb => hr b (Or.inr (Or.inl hb))
    · exact ih hup (fun b hb => hl b (Or.inr (Or.inr hb))) fun b hb => hr b (Or.inr (Or.inr hb))
  | right up a l ih =>
    simp only [mem_nodes_right] at hl hr
    obtain ⟨hright, hleft, hcl, hup⟩ := h
    refine ⟨?_, ?_, ?_, ?_⟩
    · rw [hr a (Or.inl rfl), hright]
    · rw [hl a (Or.inl rfl), hleft]
    · exact hcl.congr (fun b hb => hl b (Or.inr (Or.inl hb))) fun b hb => hr b (Or.inr (Or.inl hb))
    · exact ih hup (fun b hb => hl b (Or.inr (Or.inr hb))) fun b hb => hr b (Or.inr (Or.inr hb))

theorem Parents.congr (h : p.Parents parent) (hp : ∀ a ∈ p.nodes, parent' a = parent a) :
    p.Parents parent' := by
  induction p with
  | root => trivial
  | left up a r ih =>
    simp only [mem_nodes_left] at hp
    obtain ⟨hparent, hpr, hup⟩ := h
    refine ⟨?_, ?_, ?_⟩
    · rw [hp a (Or.inl rfl), hparent]
    · exact hpr.congr fun b hb => hp b (Or.inr (Or.inl hb))
    · exact ih hup fun b hb => hp b (Or.inr (Or.inr hb))
  | right up a l ih =>
    simp only [mem_nodes_right] at hp
    obtain ⟨hparent, hpl, hup⟩ := h
    refine ⟨?_, ?_, ?_⟩
    · rw [hp a (Or.inl rfl), hparent]
    · exact hpl.congr fun b hb => hp b (Or.inr (Or.inl hb))
    · exact ih hup fun b hb => hp b (Or.inr (Or.inr hb))

/-- The pointer to the whole tree depends on the hole only if the hole is all of it. -/
theorem topOf_eq (p : Path α) (hole v : Option α) :
    p.topOf v = if p.owner = none then v else p.topOf hole := by
  cases p with
  | root => rfl
  | left up a r => rfl
  | right up a l => rfl

end Path

theorem Path.nodup_left {up : Path α} {r : BinaryTree α} (h : (Path.left up a r).nodes.Nodup) :
    a ∉ inorder r ∧ a ∉ up.nodes := by
  have hfill : (inorder (up.fill (.node a .nil r))).Nodup := by
    rw [Path.inorder_fill]
    simpa [Path.nodes, Path.before, Path.after, inorder] using h
  rw [Path.nodup_fill] at hfill
  obtain ⟨_, hnode, hup⟩ := hfill
  exact ⟨(nodup_node.mp hnode).1.2, fun ha => hup a ha List.mem_cons_self⟩

theorem Path.nodup_right {up : Path α} {l : BinaryTree α} (h : (Path.right up a l).nodes.Nodup) :
    a ∉ inorder l ∧ a ∉ up.nodes := by
  have hfill : (inorder (up.fill (.node a l .nil))).Nodup := by
    rw [Path.inorder_fill]
    simpa [Path.nodes, Path.before, Path.after, inorder] using h
  rw [Path.nodup_fill] at hfill
  obtain ⟨_, hnode, hup⟩ := hfill
  exact ⟨(nodup_node.mp hnode).1.1,
    fun ha => hup a ha (List.mem_append_right _ List.mem_cons_self)⟩

/-! ## Another tree in the hole -/

variable [DecidableEq α] {p : Path α}

/-- Point the owner of the hole to `v`, if the hole is on its left. -/
def Path.setLeft (p : Path α) (left : α → Option α) (v : Option α) : α → Option α :=
  match p with
  | .left _ a _ => Function.update left a v
  | _ => left

/-- Point the owner of the hole to `v`, if the hole is on its right. -/
def Path.setRight (p : Path α) (right : α → Option α) (v : Option α) : α → Option α :=
  match p with
  | .right _ a _ => Function.update right a v
  | _ => right

/-- Point the node `v`, if there is one, up to `up`. -/
def setParent (parent : α → Option α) (v up : Option α) : α → Option α :=
  match v with
  | some a => Function.update parent a up
  | none => parent

theorem Path.setLeft_of_notMem (ha : a ∉ p.nodes) : p.setLeft left v a = left a := by
  cases p with
  | left up b r =>
    rw [mem_nodes_left, not_or] at ha
    exact Function.update_of_ne ha.1 v left
  | _ => rfl

theorem Path.setRight_of_notMem (ha : a ∉ p.nodes) : p.setRight right v a = right a := by
  cases p with
  | right up b l =>
    rw [mem_nodes_right, not_or] at ha
    exact Function.update_of_ne ha.1 v right
  | _ => rfl

theorem setParent_of_ne (ha : v ≠ some a) : setParent parent v up a = parent a := by
  cases v with
  | none => rfl
  | some b => exact Function.update_of_ne (fun hab => ha (congrArg some hab.symm)) up parent

theorem setParent_self : setParent parent (some a) up a = up := Function.update_self ..

theorem setParent_of_notMem (ha : a ∉ inorder t) : setParent parent (top t) up a = parent a :=
  setParent_of_ne fun htop => ha (mem_inorder_of_top htop)

theorem Path.Children.plug (h : p.Children left right hole) (hn : p.nodes.Nodup)
    (v : Option α) : p.Children (p.setLeft left v) (p.setRight right v) v := by
  cases p with
  | root => trivial
  | left up a r =>
    obtain ⟨_, hright, hcr, hup⟩ := h
    obtain ⟨har, hau⟩ := Path.nodup_left hn
    refine ⟨Function.update_self .., hright, ?_, ?_⟩
    · exact hcr.congr (fun b hb => Function.update_of_ne (ne_of_mem_of_not_mem hb har) ..)
        fun _ _ => rfl
    · exact hup.congr (fun b hb => Function.update_of_ne (ne_of_mem_of_not_mem hb hau) ..)
        fun _ _ => rfl
  | right up a l =>
    obtain ⟨_, hleft, hcl, hup⟩ := h
    obtain ⟨hal, hau⟩ := Path.nodup_right hn
    refine ⟨Function.update_self .., hleft, ?_, ?_⟩
    · exact hcl.congr (fun _ _ => rfl)
        fun b hb => Function.update_of_ne (ne_of_mem_of_not_mem hb hal) ..
    · exact hup.congr (fun _ _ => rfl)
        fun b hb => Function.update_of_ne (ne_of_mem_of_not_mem hb hau) ..

/-- The owner of the hole points to another tree, which is then in the hole. -/
theorem children_plug (hp : p.Children left right hole) (ht : Children left right t)
    (hn : (inorder (p.fill t)).Nodup) :
    Children (p.setLeft left (top t)) (p.setRight right (top t)) (p.fill t) := by
  obtain ⟨hpn, _, hdisjoint⟩ := Path.nodup_fill.mp hn
  apply Path.children_fill.mpr
  constructor
  · exact hp.plug hpn (top t)
  · exact ht.congr (fun a ha => Path.setLeft_of_notMem fun hap => hdisjoint a hap ha)
      fun a ha => Path.setRight_of_notMem fun hap => hdisjoint a hap ha

theorem Parents.setParent (h : Parents parent up t) (hn : (inorder t).Nodup) (up' : Option α) :
    Parents (setParent parent (top t) up') up' t := by
  cases t with
  | nil => trivial
  | node a l r =>
    obtain ⟨_, hpl, hpr⟩ := h
    obtain ⟨⟨hal, har⟩, _⟩ := nodup_node.mp hn
    refine ⟨setParent_self, ?_, ?_⟩
    · exact hpl.congr fun b hb => setParent_of_ne fun hab => hal (Option.some.inj hab ▸ hb)
    · exact hpr.congr fun b hb => setParent_of_ne fun hab => har (Option.some.inj hab ▸ hb)

/-- A tree put in the hole, once its first node points up to the owner of the hole. -/
theorem parents_plug (hp : p.Parents parent) (ht : Parents parent up t)
    (hn : (inorder (p.fill t)).Nodup) :
    Parents (setParent parent (top t) p.owner) none (p.fill t) := by
  obtain ⟨_, htn, hdisjoint⟩ := Path.nodup_fill.mp hn
  apply Path.parents_fill.mpr
  constructor
  · exact hp.congr fun a ha => setParent_of_notMem (hdisjoint a ha)
  · exact ht.setParent htn p.owner

end InterviewQuestions.Library.PointerTree

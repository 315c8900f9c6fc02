import InterviewQuestions.Library.PointerTree

/-! Trees in memory whose last right pointer leads on, to a node that comes after the tree. -/
namespace InterviewQuestions.Library.PointerTree

variable {α : Type*} {left right right' : α → Option α} {next v : Option α} {t l r : BinaryTree α}
  {a b : α}

/-- The pointer to a tree, or to what comes after it. -/
def topOr (next : Option α) : BinaryTree α → Option α
  | .nil => next
  | .node a _ _ => some a

/-- Every node points to its two subtrees, except that the last right pointer is `next`. -/
def Threaded (left right : α → Option α) : Option α → BinaryTree α → Prop
  | _, .nil => True
  | next, .node a l r =>
      left a = top l ∧ right a = topOr next r ∧ Threaded left right none l ∧
        Threaded left right next r

/-- The node with the last right pointer, where `a` has the right subtree `r`. -/
def rightmost (a : α) : BinaryTree α → α
  | .nil => a
  | .node b _ r => rightmost b r

theorem topOr_none (t : BinaryTree α) : topOr none t = top t := by
  cases t with
  | nil => rfl
  | node a l r => rfl

theorem threaded_none : Threaded left right none t ↔ Children left right t := by
  induction t with
  | nil => rfl
  | node a l r ihl ihr => rw [Threaded, Children, topOr_none, ihl, ihr]

theorem rightmost_mem (a : α) (l r : BinaryTree α) : rightmost a r ∈ inorder (.node a l r) := by
  induction r generalizing a l with
  | nil => exact List.mem_append_right _ List.mem_cons_self
  | node b l' r ihl ihr =>
    apply List.mem_append_right
    exact List.mem_cons_of_mem a (ihr b l')

theorem Threaded.right_rightmost (h : Threaded left right next (.node a l r)) :
    right (rightmost a r) = next := by
  induction r generalizing a l with
  | nil => exact h.2.1
  | node b l' r ihl ihr => exact ihr h.2.2.2

theorem Threaded.congr (h : Threaded left right next t) (hr : ∀ a ∈ inorder t, right' a = right a) :
    Threaded left right' next t := by
  induction t generalizing next with
  | nil => trivial
  | node a l r ihl ihr =>
    simp only [inorder, List.mem_append, List.mem_cons] at hr
    apply And.intro h.1
    apply And.intro ((hr a (.inr (.inl rfl))).trans h.2.1)
    apply And.intro (ihl h.2.2.1 fun b hb => hr b (.inl hb))
    exact ihr h.2.2.2 fun b hb => hr b (.inr (.inr hb))

/-- The nodes that are left of no other node. -/
def spine : BinaryTree α → List α
  | .nil => []
  | .node a _ r => a :: spine r

theorem mem_inorder_of_mem_spine (h : a ∈ spine t) : a ∈ inorder t := by
  induction t with
  | nil => cases h
  | node b l r ihl ihr =>
    rcases List.mem_cons.mp h with rfl | h
    · exact List.mem_append_right _ List.mem_cons_self
    · exact List.mem_append_right _ (List.mem_cons_of_mem b (ihr h))

/-- The hole is on the left of no node. -/
def Path.Straight : Path α → Prop
  | .root => True
  | .left _ _ _ => False
  | .right up _ _ => up.Straight

theorem Path.mem_spine_fill {p : Path α} (hn : (inorder (p.fill t)).Nodup) (ha : a ∈ inorder t) :
    a ∈ spine (p.fill t) ↔ a ∈ spine t ∧ p.Straight := by
  induction p generalizing t with
  | root => exact (and_iff_left trivial).symm
  | left up b r ih =>
    obtain ⟨⟨hbl, -⟩, -, -, hdisjoint⟩ := nodup_node.mp ((Path.nodup_fill (p := up)).mp hn).2.1
    refine iff_of_false (fun hmem => ?_) (fun hmem => hmem.2)
    rcases List.mem_cons.mp ((ih hn (List.mem_append_left _ ha)).mp hmem).1 with rfl | hmem
    · exact hbl ha
    · exact hdisjoint a ha (mem_inorder_of_mem_spine hmem)
  | right up b l ih =>
    obtain ⟨⟨-, hbr⟩, -⟩ := nodup_node.mp ((Path.nodup_fill (p := up)).mp hn).2.1
    have hne : a ≠ b := ne_of_mem_of_not_mem ha hbr
    have hspine : a ∈ spine (.node b l t) ↔ a ∈ spine t := List.mem_cons.trans (or_iff_right hne)
    rw [Path.fill, ih hn (List.mem_append_right _ (List.mem_cons_of_mem b ha)), hspine]
    rfl

variable [DecidableEq α]

/-- The last right pointer is set to `v`. -/
theorem Threaded.update (h : Threaded left right next (.node a l r))
    (hn : (inorder (.node a l r)).Nodup) (v : Option α) :
    Threaded left (Function.update right (rightmost a r) v) v (.node a l r) := by
  induction r generalizing a l with
  | nil =>
    obtain ⟨⟨hal, -⟩, -⟩ := nodup_node.mp hn
    apply And.intro h.1
    apply And.intro (Function.update_self ..)
    apply And.intro _ trivial
    exact h.2.2.1.congr fun b hb => Function.update_of_ne (ne_of_mem_of_not_mem hb hal) ..
  | node b l' r ihl ihr =>
    obtain ⟨⟨-, har⟩, -, hnr, hdisjoint⟩ := nodup_node.mp hn
    have hlast : rightmost b r ∈ inorder (.node b l' r) := rightmost_mem b l' r
    have hne : a ≠ rightmost b r := fun heq => har (heq ▸ hlast)
    apply And.intro h.1
    apply And.intro ((Function.update_of_ne hne ..).trans h.2.1)
    apply And.intro _ (ihr h.2.2.2 hnr)
    apply h.2.2.1.congr
    intro c hc
    apply Function.update_of_ne
    rintro rfl
    exact hdisjoint _ hc hlast

/-- The search for the last right pointer, which may be a thread to `c`. -/
def searchLast (right : α → Option α) (c : α) : ℕ → α → Option α
  | 0, _ => none
  | fuel + 1, a =>
      match right a with
      | none => some a
      | some next => if next = c then some a else searchLast right c fuel next

theorem searchLast_eq (h : Threaded left right next (.node a l r))
    (hnext : next = none ∨ next = some b) (hb : b ∉ inorder (.node a l r)) {fuel : ℕ}
    (hfuel : (BinaryTree.node a l r).numNodes ≤ fuel) :
    searchLast right b fuel a = some (rightmost a r) := by
  induction r generalizing a l fuel with
  | nil =>
    cases fuel with
    | zero => exact absurd hfuel (Nat.not_succ_le_zero _)
    | succ fuel =>
      have hright : right a = next := h.2.1
      rw [searchLast, hright]
      rcases hnext with rfl | rfl
      · rfl
      · exact if_pos rfl
  | node c l' r ihl ihr =>
    cases fuel with
    | zero => exact absurd hfuel (Nat.not_succ_le_zero _)
    | succ fuel =>
      have hright : right a = some c := h.2.1
      have hsub : b ∉ inorder (.node c l' r) := fun hmem =>
        hb (List.mem_append_right _ (List.mem_cons_of_mem a hmem))
      have hne : c ≠ b := fun heq => hsub (heq ▸ List.mem_append_right _ List.mem_cons_self)
      rw [searchLast, hright]
      dsimp only
      rw [if_neg hne, rightmost]
      apply ihr h.2.2.2 hsub
      rw [BinaryTree.numNodes] at hfuel
      omega

/-! ## Traversals that are under way

While the tree in the hole is visited, a thread leads back to each node that has the hole on its
left. -/

/-- The last right pointer of a tree is set to `v`. -/
def setLast (right : α → Option α) (v : Option α) : BinaryTree α → α → Option α
  | .nil => right
  | .node a _ r => Function.update right (rightmost a r) v

namespace Path

variable {p : Path α}

/-- The first node after the hole. -/
def pending : Path α → Option α
  | .root => none
  | .left _ a _ => some a
  | .right up _ _ => up.pending

def threads (right : α → Option α) : Path α → BinaryTree α → α → Option α
  | .root, _ => right
  | .left up a r, t => setLast (up.threads right (.node a t r)) (some a) t
  | .right up a l, t => up.threads right (.node a l t)

theorem threaded (h : PointerTree.Children left right (p.fill t))
    (hn : (inorder (p.fill t)).Nodup) :
    Threaded left (p.threads right t) p.pending t := by
  induction p generalizing t with
  | root => exact threaded_none.mpr h
  | left up a r ih =>
    obtain ⟨-, -, hl, -⟩ := ih h hn
    cases t with
    | nil => trivial
    | node b l' r' =>
      exact hl.update (nodup_fill.mp hn).2.1 (some a)
  | right up a l ih => exact (ih h hn).2.2.2

/-- Either there is nothing after the hole, or the traversal comes back to the next node. -/
theorem pending_cases (right : α → Option α) (p : Path α) (t : BinaryTree α) :
    (p.pending = none ∧ p.after = [] ∧ p.threads right t = right) ∨
      ∃ up a l r, p.pending = some a ∧ up.fill (.node a l r) = p.fill t ∧
        p.before ++ inorder t = up.before ++ inorder l ∧
          p.threads right t = (Path.left up a r).threads right l := by
  induction p generalizing t with
  | root => exact .inl ⟨rfl, rfl, rfl⟩
  | left up a r ih => exact .inr ⟨up, a, t, r, rfl, rfl, rfl, rfl⟩
  | right up a l ih =>
    have hbefore : (Path.right up a l).before ++ inorder t =
        up.before ++ inorder (.node a l t) := by
      simp [before, inorder]
    rw [hbefore]
    exact ih (.node a l t)

/-- There are no threads only where the hole is on the left of no node. -/
theorem threads_eq_iff (h : PointerTree.Children left right (p.fill (.node a l r))) :
    (∀ c ∈ inorder (p.fill (.node a l r)), p.threads right (.node a l r) c = right c) ↔
      p.Straight := by
  generalize ht : BinaryTree.node a l r = t at h ⊢
  induction p generalizing t a l r with
  | root => exact iff_of_true (fun _ _ => rfl) trivial
  | left up b r' ih =>
    subst ht
    refine iff_of_false (fun heq => ?_) id
    have hsub := (children_fill.mp h).2
    have hlast := (threaded_none.mpr hsub).right_rightmost
    have hmem : rightmost a r ∈ inorder ((Path.left up b r').fill (.node a l r)) :=
      mem_fill.mpr (.inr (rightmost_mem a l r))
    have hthread := heq _ hmem
    rw [threads, setLast, Function.update_self, hlast] at hthread
    cases hthread
  | right up b l' ih => exact ih _ rfl h

end Path

end InterviewQuestions.Library.PointerTree

import InterviewQuestions.Bst.Neighbours
import InterviewQuestions.Bst.Successor
import InterviewQuestions.Library.SearchTree

/-! A deletion takes one node out of a search tree and leaves the others in their order. -/
namespace InterviewQuestions.Bst

open Library Library.PointerTree Library.KeyedTree

variable {mem mem' : Memory} {t l r sr : BinaryTree Address} {p q : Path Address} {k : Int32}
  {a s u z : Address} {v up : Option Address}

/-! ## Keys stay -/

namespace Memory

@[simp] theorem key_setLeft : (mem.setLeft a v).key = mem.key :=
  (key_write _).trans (Function.update_eq_self a mem.key)

@[simp] theorem key_setRight : (mem.setRight a v).key = mem.key :=
  (key_write _).trans (Function.update_eq_self a mem.key)

@[simp] theorem key_setParent : (mem.setParent a v).key = mem.key :=
  (key_write _).trans (Function.update_eq_self a mem.key)

end Memory

@[simp] theorem key_setParentOf : (setParentOf mem v up).key = mem.key := by
  cases v with
  | none => rfl
  | some a => exact Memory.key_setParent

theorem key_transplant (mem : Memory) (u : Address) (v : Option Address) :
    (transplant mem u v).key = mem.key := by
  have hend (mem : Memory) (up : Option Address) : (setParentOf mem v up).key = mem.key :=
    key_setParentOf
  unfold transplant
  cases hup : mem.parent u with
  | none => exact hend mem _
  | some a =>
    simp only
    by_cases hleft : some u = mem.left a
    · rw [if_pos hleft]
      exact (hend _ _).trans Memory.key_setLeft
    · rw [if_neg hleft]
      exact (hend _ _).trans Memory.key_setRight

theorem key_replaceBySuccessor (mem : Memory) (z s : Address) :
    (replaceBySuccessor mem z s).key = mem.key := by
  unfold replaceBySuccessor
  split
  · rw [key_transplant, Memory.key_setLeft]
  · simp only [key_transplant, key_setParentOf, Memory.key_setLeft, Memory.key_setRight]

theorem key_treeDeleteInternal {root root' : Option Address}
    (h : treeDeleteInternal mem root z = some (mem', root')) : mem'.key = mem.key := by
  unfold treeDeleteInternal at h
  split at h
  · obtain ⟨rfl, -⟩ := Prod.mk.inj (Option.some.inj h)
    exact key_transplant mem z _
  · split at h
    · obtain ⟨rfl, -⟩ := Prod.mk.inj (Option.some.inj h)
      exact key_transplant mem z _
    · split at h
      · obtain ⟨rfl, -⟩ := Prod.mk.inj (Option.some.inj h)
        exact key_replaceBySuccessor mem z _
      · cases h

/-! ## The node goes -/

/-- What a deletion of `z` leaves: the other nodes in the same order, as a search tree. -/
structure Removes (mem : Memory) (t : BinaryTree Address) (front back : List Address)
    (mem' : Memory) (t' : BinaryTree Address) : Prop where
  linked : Linked mem' t'
  key : mem'.key = mem.key
  nodes : inorder t' = front ++ back
  ordered : ∀ rank : Address → ℤ, Ordered rank t → Ordered rank t'

/-- The first node of a tree with a hole is in the hole only if nothing comes before. -/
theorem before_eq_nil (hn : (inorder (q.fill (.node s .nil sr))).Nodup)
    (hhead : (inorder (q.fill (.node s .nil sr))).head? = some s) : q.before = [] := by
  rw [Path.inorder_fill, inorder, inorder, List.nil_append, List.append_assoc] at hn hhead
  cases hbefore : q.before with
  | nil => rfl
  | cons b rest =>
    rw [hbefore] at hn hhead
    obtain rfl : b = s := Option.some.inj hhead
    have hnot := (List.nodup_cons.mp hn).1
    exact absurd (List.mem_append_right rest List.mem_cons_self) hnot

theorem inorder_fill_node (p : Path Address) (z : Address) (l r : BinaryTree Address) :
    inorder (p.fill (.node z l r)) = (p.before ++ inorder l) ++ z :: (inorder r ++ p.after) := by
  rw [Path.inorder_fill, inorder]
  simp

/-- The successor of `z` is the first node to its right, and takes its place. -/
theorem removes_of_successor (hnodup : (inorder (q.fill (.node s .nil sr))).Nodup)
    (hhead : (inorder (q.fill (.node s .nil sr))).head? = some s)
    (hlinked : Linked mem' (p.fill (.node s l (q.fill sr)))) (hkey : mem'.key = mem.key) :
    Removes mem (p.fill (.node z l (q.fill (.node s .nil sr)))) (p.before ++ inorder l)
      (inorder (q.fill (.node s .nil sr)) ++ p.after) mem' (p.fill (.node s l (q.fill sr))) := by
  have hq := before_eq_nil hnodup hhead
  refine ⟨hlinked, hkey, ?_, fun rank hord => ?_⟩
  · rw [inorder_fill_node, Path.inorder_fill, Path.inorder_fill, hq]
    simp [inorder]
  · apply hord.refill (hord.of_fill.promote hq)
    exact fun x hx => (perm_successor .root q z s l sr).mem_iff.mpr (List.mem_cons_of_mem z hx)

theorem treeDeleteInternal_two {b : Address} {rl rr : BinaryTree Address}
    (h : Linked mem (p.fill (.node z l (.node b rl rr))))
    (hp : Parents mem.parent none (p.fill (.node z l (.node b rl rr)))) (hl : l ≠ .nil) :
    ∃ mem' t', treeDeleteInternal mem (top (p.fill (.node z l (.node b rl rr)))) z =
        some (mem', top t') ∧
      Removes mem (p.fill (.node z l (.node b rl rr))) (p.before ++ inorder l)
        (inorder (.node b rl rr) ++ p.after) mem' t' := by
  have hnode : Linked mem (.node z l (.node b rl rr)) := h.of_fill
  have hright : Linked mem (.node b rl rr) := Linked.of_fill (p := .right .root z l) hnode
  have hmem : mem.right z = some b := hnode.children.2.1
  obtain ⟨q, s, sr, hfill, hmin, -⟩ := hright.treeMinimum_spec
  have hfuel := hright.numNodes_lt
  rw [BinaryTree.numNodes] at hfuel
  have hhead := minimumLoop_head hright.children
    (show rl.numNodes < mem.live.length + 1 by omega)
  have hloop : treeMinimum.loop mem (mem.live.length + 1) b = some s := by
    obtain ⟨_, hs, hsome⟩ := Option.map_eq_some_iff.mp hmin
    rw [hs, Option.some.inj hsome]
  rw [hloop] at hhead
  rw [← hfill] at h hp hhead hright ⊢
  rw [← hmem] at hmin
  by_cases hroot : q.owner = none
  · cases q with
    | root =>
      obtain ⟨mem', hdelete, hlinked, -⟩ := delete_child_successor h hp hl hmin
      exact ⟨mem', _, hdelete,
        removes_of_successor hright.nodup hhead.symm hlinked (key_treeDeleteInternal hdelete)⟩
    | left up d dr => cases hroot
    | right up d dl => cases hroot
  · obtain ⟨mem', hdelete, hlinked, -⟩ := delete_deep_successor h hp hl hroot hmin
    exact ⟨mem', _, hdelete,
      removes_of_successor hright.nodup hhead.symm hlinked (key_treeDeleteInternal hdelete)⟩

theorem treeDeleteInternal_removes (h : Linked mem (p.fill (.node z l r)))
    (hp : Parents mem.parent none (p.fill (.node z l r))) :
    ∃ mem' t', treeDeleteInternal mem (top (p.fill (.node z l r))) z = some (mem', top t') ∧
      Removes mem (p.fill (.node z l r)) (p.before ++ inorder l) (inorder r ++ p.after)
        mem' t' := by
  cases l with
  | nil =>
    obtain ⟨mem', hdelete, hlinked, -⟩ := delete_no_left h hp
    refine ⟨mem', p.fill r, hdelete, hlinked, key_treeDeleteInternal hdelete, ?_, ?_⟩
    · rw [Path.inorder_fill, inorder]
      simp
    · exact fun rank hord => hord.refill hord.of_fill.2.2.2 fun b hb => List.mem_cons_of_mem z hb
  | node c ll lr =>
    have hl : BinaryTree.node c ll lr ≠ .nil := by simp
    cases r with
    | nil =>
      obtain ⟨mem', hdelete, hlinked, -⟩ := delete_no_right h hp hl
      refine ⟨mem', _, hdelete, hlinked, key_treeDeleteInternal hdelete, ?_, ?_⟩
      · rw [Path.inorder_fill, inorder, inorder]
        simp
      · exact fun rank hord => hord.refill hord.of_fill.2.2.1 fun b hb =>
          List.mem_append_left _ hb
    | node b rl rr => exact treeDeleteInternal_two h hp hl

/-! ## The search for the key -/

/-- Left keys are less than the key of a node, and right keys are not. -/
def IsSearchTree (mem : Memory) (t : BinaryTree Address) : Prop :=
  Ordered (fun a => (mem.key a).toInt) t

theorem findLoop_ordered {fuel : ℕ} (hc : Children mem.left mem.right t)
    (hord : IsSearchTree mem t) (hfuel : t.numNodes < fuel) :
    (treeFind.loop mem k fuel (top t) = some none ∧ ∀ a ∈ inorder t, mem.key a ≠ k) ∨
      ∃ z ∈ inorder t, treeFind.loop mem k fuel (top t) = some (some z) ∧ mem.key z = k := by
  induction fuel generalizing t with
  | zero => omega
  | succ fuel ih =>
    cases t with
    | nil => exact .inl ⟨rfl, fun a ha => absurd ha List.not_mem_nil⟩
    | node a l r =>
      obtain ⟨hleft, hright, hcl, hcr⟩ := hc
      obtain ⟨hless, hmore, hordl, hordr⟩ := hord
      rw [BinaryTree.numNodes] at hfuel
      simp only [top, treeFind.loop]
      by_cases hk : mem.key a = k
      · rw [if_neg (not_not_intro hk)]
        exact .inr ⟨a, List.mem_append_right _ List.mem_cons_self, rfl, hk⟩
      rw [if_pos hk]
      by_cases hlt : k < mem.key a
      · rw [if_pos hlt, hleft]
        rw [Int32.lt_iff_toInt_lt] at hlt
        rcases ih hcl hordl (by omega) with ⟨hnone, hall⟩ | ⟨z, hz, hfound, hkey⟩
        · refine .inl ⟨hnone, fun b hb heq => ?_⟩
          rcases List.mem_append.mp hb with hb | hb
          · exact hall b hb heq
          · rcases List.mem_cons.mp hb with rfl | hb
            · exact hk heq
            · have hle : (mem.key a).toInt ≤ (mem.key b).toInt := hmore b hb
              rw [heq] at hle
              exact absurd hle (not_le.mpr hlt)
        · exact .inr ⟨z, List.mem_append_left _ hz, hfound, hkey⟩
      · rw [if_neg hlt, hright]
        rw [Int32.lt_iff_toInt_lt] at hlt
        rcases ih hcr hordr (by omega) with ⟨hnone, hall⟩ | ⟨z, hz, hfound, hkey⟩
        · refine .inl ⟨hnone, fun b hb heq => ?_⟩
          rcases List.mem_append.mp hb with hb | hb
          · have hlt' : (mem.key b).toInt < (mem.key a).toInt := hless b hb
            rw [heq] at hlt'
            exact absurd hlt' hlt
          · rcases List.mem_cons.mp hb with rfl | hb
            · exact hk heq
            · exact hall b hb heq
        · exact .inr ⟨z, List.mem_append_right _ (List.mem_cons_of_mem a hz), hfound, hkey⟩

/-- The keys from left to right. -/
def keys (mem : Memory) (t : BinaryTree Address) : List Int32 := (inorder t).map mem.key

theorem IsSearchTree.keys_sorted (h : IsSearchTree mem t) :
    (keys mem t).Pairwise fun x y => x.toInt ≤ y.toInt :=
  List.pairwise_map.mpr h.pairwise

/-- From a sorted list it does not matter which of several equal elements is taken. -/
theorem erase_middle {xs ys : List Int32}
    (h : (xs ++ k :: ys).Pairwise fun x y => x.toInt ≤ y.toInt) :
    (xs ++ k :: ys).erase k = xs ++ ys := by
  have hperm : ((xs ++ k :: ys).erase k).Perm (xs ++ ys) := by
    have hmiddle : (xs ++ k :: ys).Perm (k :: (xs ++ ys)) := List.perm_middle
    have herase := hmiddle.erase k
    rwa [List.erase_cons_head] at herase
  apply hperm.eq_of_pairwise _ (h.sublist List.erase_sublist) (h.sublist ?_)
  · exact fun x y _ _ hxy hyx => Int32.toInt_inj.mp (le_antisymm hxy hyx)
  · exact (List.sublist_cons_self k ys).append_left xs

theorem treeDelete_keys (mem : Memory) (t : BinaryTree Address) (h : Linked mem t)
    (hp : Parents mem.parent none t) (hord : IsSearchTree mem t) (k : Int32) :
    ∃ mem' t', treeDelete mem (top t) k = some (mem', top t') ∧ Linked mem' t' ∧
      IsSearchTree mem' t' ∧ keys mem' t' = (keys mem t).erase k := by
  rcases findLoop_ordered (k := k) h.children hord h.numNodes_lt with
    ⟨hnone, hall⟩ | ⟨z, hz, hfound, rfl⟩
  · refine ⟨mem, t, ?_, h, hord, ?_⟩
    · simp only [treeDelete, treeFind, hnone]
    · rw [List.erase_of_not_mem]
      intro hk
      obtain ⟨a, ha, hkey⟩ := List.mem_map.mp hk
      exact hall a ha hkey
  · obtain ⟨p, l, r, rfl⟩ := Path.exists_fill hz
    obtain ⟨mem', t', hdelete, hremoves⟩ := treeDeleteInternal_removes h hp
    refine ⟨mem', t', ?_, hremoves.linked, ?_, ?_⟩
    · simp only [treeDelete, treeFind, hfound, hdelete]
    · rw [IsSearchTree, hremoves.key]
      exact hremoves.ordered _ hord
    · have hsorted := hord.keys_sorted
      unfold keys at hsorted ⊢
      rw [inorder_fill_node, List.map_append, List.map_cons] at hsorted ⊢
      rw [erase_middle hsorted, hremoves.key, hremoves.nodes, List.map_append]

theorem treeDelete_keys_twins :
    ∃ mem' t', treeDelete twins (some 0) 2 = some (mem', top t') ∧ Linked mem' t' ∧
      IsSearchTree mem' t' ∧ keys mem' t' = [1, 2] :=
  treeDelete_keys twins twinsTree linked_twins parents_twins
    ⟨by decide, by decide, ⟨by decide, by decide, trivial, trivial⟩, by decide, by decide, trivial,
      trivial⟩ 2

end InterviewQuestions.Bst

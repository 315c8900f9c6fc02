import InterviewQuestions.Library.ThreadedTree

/-! `trees_graphs/parallel_inorder/solution.c`. There is no result where a loop has more than `fuel`
iterations. -/
namespace InterviewQuestions.ParallelInorder

open Library PointerTree

abbrev Address := ℕ

structure Memory where
  val : Address → Int32
  left : Address → Option Address
  right : Address → Option Address

/-- `a->right = p` -/
def Memory.setRight (mem : Memory) (a : Address) (p : Option Address) : Memory :=
  { mem with right := Function.update mem.right a p }

/-- The loop that starts with `predecessor = curr->left`. -/
def findPredecessor (mem : Memory) (curr : Address) : ℕ → Address → Option Address :=
  searchLast mem.right curr

/-- The loop of `next_node` from `curr` on: the node that is returned, the iterator and the
memory. -/
def nextLoop :
    ℕ → Memory → Option Address → Option Address → Option (Option Address × Option Address × Memory)
  | 0, _, _, _ => none
  | _ + 1, mem, iterator, none => some (none, iterator, mem)
  | fuel + 1, mem, iterator, some curr =>
      match mem.left curr with
      | none => some (some curr, mem.right curr, mem)
      | some left => do
          let predecessor ← findPredecessor mem curr fuel left
          match mem.right predecessor with
          | none =>
              let mem := mem.setRight predecessor (some curr)
              nextLoop fuel mem iterator (mem.left curr)
          | some _ =>
              let mem := mem.setRight predecessor none
              some (some curr, mem.right curr, mem)

def nextNode (fuel : ℕ) (mem : Memory) (currNode iterator : Option Address) (inProgress : Bool) :
    Option (Option Address × Option Address × Memory) :=
  nextLoop fuel mem iterator (if !inProgress && iterator.isNone then currNode else iterator)

/-- The loop of `same_inorder`. -/
def compare :
    ℕ → Memory → Option Address → Option Address → Option Address → Option Address →
      Option (Bool × Memory)
  | 0, _, _, _, _, _ => none
  | fuel + 1, mem, some root1, some root2, iter1, iter2 =>
      if mem.val root1 ≠ mem.val root2 then some (false, mem)
      else do
        let (root1, iter1, mem) ← nextNode fuel mem root1 iter1 true
        let (root2, iter2, mem) ← nextNode fuel mem root2 iter2 true
        compare fuel mem root1 root2 iter1 iter2
  | _ + 1, mem, root1, root2, _, _ => some (root1.isNone && root2.isNone, mem)

def sameInorder (fuel : ℕ) (mem : Memory) (root1 root2 : Option Address) : Option (Bool × Memory) :=
  do
    let (root1, iter1, mem) ← nextNode fuel mem root1 none false
    let (root2, iter2, mem) ← nextNode fuel mem root2 none false
    compare fuel mem root1 root2 iter1 iter2

variable {mem mem' mem₀ : Memory} {t t₁ t₂ s l r : BinaryTree Address} {a b : Address}
  {p up : Path Address} {root iter it : Option Address} {fuel k : ℕ}

theorem setRight_right (mem : Memory) (a : Address) (v : Option Address) :
    (mem.setRight a v).right = Function.update mem.right a v := rfl

/-! ## One call -/

/-- The memory with the threads that there are while the hole is visited. -/
structure Underway (mem₀ mem : Memory) (p : Path Address) (t : BinaryTree Address) : Prop where
  val : mem.val = mem₀.val
  left : mem.left = mem₀.left
  right : ∀ a ∈ inorder (p.fill t), mem.right a = p.threads mem₀.right t a

/-- Right pointers are set in the tree only. -/
structure Within (t : BinaryTree Address) (mem mem' : Memory) : Prop where
  val : mem'.val = mem.val
  left : mem'.left = mem.left
  right : ∀ a ∉ inorder t, mem'.right a = mem.right a

/-- The traversal has got to the node with the number `k`. -/
inductive At (mem₀ mem : Memory) (t : BinaryTree Address) (k : ℕ) :
    Option Address → Option Address → Prop
  | node (up : Path Address) (a : Address) (l r : BinaryTree Address)
      (htree : up.fill (.node a l r) = t) (hk : (up.before ++ inorder l).length = k)
      (h : Underway mem₀ mem up (.node a l r)) : At mem₀ mem t k (some a) (topOr up.pending r)
  | ended (it : Option Address) (hk : (inorder t).length = k) (h : Underway mem₀ mem .root t) :
      At mem₀ mem t k none it

theorem within_setRight (ha : a ∈ inorder t) (v : Option Address) :
    Within t mem (mem.setRight a v) :=
  ⟨rfl, rfl, fun _ hb => Function.update_of_ne (ne_of_mem_of_not_mem ha hb).symm ..⟩

theorem Within.trans {mem'' : Memory} (h : Within t mem mem') (h' : Within t mem' mem'') :
    Within t mem mem'' :=
  ⟨h'.val.trans h.val, h'.left.trans h.left, fun a ha => (h'.right a ha).trans (h.right a ha)⟩

theorem Underway.threaded (h : Underway mem₀ mem p s)
    (hch : Children mem₀.left mem₀.right (p.fill s)) (hn : (inorder (p.fill s)).Nodup) :
    Threaded mem.left mem.right p.pending s := by
  rw [h.left]
  exact (Path.threaded hch hn).congr fun a ha => h.right a (Path.mem_fill.mpr (.inr ha))

/-- The node that a thread leads to, or a node without left subtree, is returned. -/
theorem nextLoop_return (h : Underway mem₀ mem (.left up a r) l)
    (hch : Children mem₀.left mem₀.right (up.fill (.node a l r)))
    (hn : (inorder (up.fill (.node a l r))).Nodup) (it : Option Address) {fuel : ℕ}
    (hfuel : l.numNodes ≤ fuel) :
    ∃ mem', nextLoop (fuel + 1) mem it (some a) = some (some a, topOr up.pending r, mem') ∧
      Within (up.fill (.node a l r)) mem mem' ∧ Underway mem₀ mem' up (.node a l r) := by
  have hthreaded := Path.threaded hch hn
  have ha : a ∈ inorder (up.fill (.node a l r)) :=
    Path.mem_fill.mpr (.inr (List.mem_append_right _ List.mem_cons_self))
  cases l with
  | nil =>
    have hleft : mem.left a = none := (congrFun h.left a).trans hthreaded.1
    have hright : mem.right a = topOr up.pending r := (h.right a ha).trans hthreaded.2.1
    refine ⟨mem, ?_, ⟨rfl, rfl, fun _ _ => rfl⟩, h.val, h.left, h.right⟩
    rw [nextLoop, hleft]
    exact congrArg (fun q => some (some a, q, mem)) hright
  | node b l' r' =>
    have hleft : mem.left a = some b := (congrFun h.left a).trans hthreaded.1
    have hsub : Threaded mem.left mem.right (some a) (.node b l' r') := h.threaded hch hn
    have hnode := (Path.nodup_fill.mp hn).2.1
    have hfind : findPredecessor mem a fuel b = some (rightmost b r') :=
      searchLast_eq hsub (.inr rfl) (nodup_node.mp hnode).1.1 hfuel
    have hlast := rightmost_mem b l' r'
    have hmem : rightmost b r' ∈ inorder (up.fill (.node a (.node b l' r') r)) :=
      Path.mem_fill.mpr (.inr (List.mem_append_left _ hlast))
    have hunder : Underway mem₀ (mem.setRight (rightmost b r') none) up
        (.node a (.node b l' r') r) := by
      refine ⟨h.val, h.left, fun c hc => ?_⟩
      by_cases hcl : c = rightmost b r'
      · rw [hcl, setRight_right, Function.update_self]
        exact hthreaded.2.2.1.right_rightmost.symm
      · rw [setRight_right, Function.update_of_ne hcl, h.right c hc, Path.threads, setLast,
          Function.update_of_ne hcl]
    refine ⟨_, ?_, within_setRight hmem none, hunder⟩
    have hright := (hunder.right a ha).trans hthreaded.2.1
    rw [nextLoop, hleft]
    simp only [hfind, Option.bind_eq_bind, Option.bind_some, hsub.right_rightmost, hright]

/-- Before a left subtree is entered, the thread back is set. -/
theorem nextLoop_enter (h : Underway mem₀ mem p (.node a (.node b l r) s))
    (hch : Children mem₀.left mem₀.right (p.fill (.node a (.node b l r) s)))
    (hn : (inorder (p.fill (.node a (.node b l r) s))).Nodup) (it : Option Address) {fuel : ℕ}
    (hfuel : (BinaryTree.node b l r).numNodes ≤ fuel) :
    ∃ mem', nextLoop (fuel + 1) mem it (some a) = nextLoop fuel mem' it (some b) ∧
      Within (p.fill (.node a (.node b l r) s)) mem mem' ∧
        Underway mem₀ mem' (.left p a s) (.node b l r) := by
  have hthreaded := h.threaded hch hn
  have hleft : mem.left a = some b := hthreaded.1
  have hnode := (Path.nodup_fill.mp hn).2.1
  have hfind : findPredecessor mem a fuel b = some (rightmost b r) :=
    searchLast_eq hthreaded.2.2.1 (.inl rfl) (nodup_node.mp hnode).1.1 hfuel
  have hmem : rightmost b r ∈ inorder (p.fill (.node a (.node b l r) s)) :=
    Path.mem_fill.mpr (.inr (List.mem_append_left _ (rightmost_mem b l r)))
  refine ⟨mem.setRight (rightmost b r) (some a), ?_, within_setRight hmem _, h.val, h.left,
    fun c hc => ?_⟩
  · have hleft' : (mem.setRight (rightmost b r) (some a)).left a = some b := hleft
    rw [nextLoop, hleft]
    simp only [hfind, Option.bind_eq_bind, Option.bind_some, hthreaded.2.2.1.right_rightmost,
      hleft']
  · rw [Path.threads, setLast, setRight_right]
    by_cases hcl : c = rightmost b r
    · rw [hcl, Function.update_self, Function.update_self]
    · rw [Function.update_of_ne hcl, Function.update_of_ne hcl]
      exact h.right c hc

theorem numNodes_le_fill (p : Path Address) (t : BinaryTree Address) :
    t.numNodes ≤ (p.fill t).numNodes := by
  rw [← length_inorder, ← length_inorder, (Path.fill_perm p t).length_eq, List.length_append]
  exact Nat.le_add_left _ _

/-- Each call returns the next node. -/
theorem nextLoop_spec (h : Underway mem₀ mem p s) (htree : p.fill s = t)
    (hch : Children mem₀.left mem₀.right t) (hn : (inorder t).Nodup) (hk : p.before.length = k)
    (hfuel : t.numNodes + s.numNodes < fuel) (it : Option Address) :
    ∃ root iter mem', nextLoop fuel mem it (topOr p.pending s) = some (root, iter, mem') ∧
      Within t mem mem' ∧ At mem₀ mem' t k root iter := by
  induction s generalizing p mem fuel with
  | nil =>
    obtain ⟨n, rfl⟩ : ∃ n, fuel = n + 1 := ⟨fuel - 1, by omega⟩
    rcases Path.pending_cases mem₀.right p .nil with ⟨hnone, hafter, hthreads⟩ |
      ⟨up, a, l, r, hsome, hfill, hbefore, hthreads⟩
    · refine ⟨none, it, mem, ?_, ⟨rfl, rfl, fun _ _ => rfl⟩, .ended it ?_ ?_⟩
      · rw [topOr, hnone]
        rfl
      · rw [← htree, Path.inorder_fill, hafter, ← hk]
        simp [inorder]
      · refine ⟨h.val, h.left, fun a ha => ?_⟩
        rw [h.right a (htree.symm ▸ ha), hthreads]
        rfl
    · have hunder : Underway mem₀ mem (.left up a r) l := by
        refine ⟨h.val, h.left, fun c hc => ?_⟩
        rw [← hthreads]
        exact h.right c (hfill ▸ hc)
      rw [← hfill] at htree
      subst htree
      have hsize := numNodes_le_fill up (.node a l r)
      rw [BinaryTree.numNodes] at hsize
      have henough : l.numNodes ≤ n := by omega
      obtain ⟨mem', heq, hwithin, hunder'⟩ := nextLoop_return hunder hch hn it henough
      refine ⟨_, _, mem', ?_, hwithin, .node up a l r rfl ?_ hunder'⟩
      · rw [topOr, hsome]
        exact heq
      · rw [← hbefore, ← hk]
        simp [inorder]
  | node a l r ihl ihr =>
    obtain ⟨n, rfl⟩ : ∃ n, fuel = n + 1 := ⟨fuel - 1, by omega⟩
    subst htree
    cases l with
    | nil =>
      obtain ⟨mem', heq, hwithin, hunder⟩ := nextLoop_return ⟨h.val, h.left, h.right⟩ hch hn it
        (Nat.zero_le n)
      refine ⟨_, _, mem', heq, hwithin, .node p a .nil r rfl ?_ hunder⟩
      rw [← hk]
      simp [inorder]
    | node b l' r' =>
      have hnodes : (BinaryTree.node a (.node b l' r') r).numNodes =
        (BinaryTree.node b l' r').numNodes + r.numNodes + 1 := rfl
      have hsize := numNodes_le_fill p (.node a (.node b l' r') r)
      have henough : (BinaryTree.node b l' r').numNodes ≤ n := by omega
      have hrest : (p.fill (.node a (.node b l' r') r)).numNodes +
        (BinaryTree.node b l' r').numNodes < n := by omega
      obtain ⟨mem', heq, hwithin, hunder⟩ := nextLoop_enter h hch hn it henough
      obtain ⟨root, iter, mem'', heq', hwithin', hat⟩ := ihl hunder rfl hk hrest
      exact ⟨root, iter, mem'', heq.trans heq', hwithin.trans hwithin', hat⟩

theorem At.root_eq (h : At mem₀ mem t k root iter) : root = (inorder t)[k]? := by
  cases h with
  | node up a l r htree hk h =>
    have hinorder : inorder t = (up.before ++ inorder l) ++ a :: (inorder r ++ up.after) := by
      rw [← htree, Path.inorder_fill]
      simp [inorder]
    rw [hinorder, ← hk, List.getElem?_append_right (Nat.le_refl _), Nat.sub_self]
    rfl
  | ended _ hk h => rw [← hk, List.getElem?_eq_none (Nat.le_refl _)]

theorem Underway.congr (h : Underway mem₀ mem p s) (hwithin : Within t mem mem')
    (hdisjoint : ∀ a ∈ inorder (p.fill s), a ∉ inorder t) : Underway mem₀ mem' p s where
  val := hwithin.val.trans h.val
  left := hwithin.left.trans h.left
  right a ha := (hwithin.right a (hdisjoint a ha)).trans (h.right a ha)

/-- The other traversal does not disturb this one. -/
theorem At.congr (h : At mem₀ mem t k root iter) (hwithin : Within t₁ mem mem')
    (hdisjoint : ∀ a ∈ inorder t, a ∉ inorder t₁) : At mem₀ mem' t k root iter := by
  cases h with
  | node up a l r htree hk h => exact .node up a l r htree hk (h.congr hwithin (htree ▸ hdisjoint))
  | ended _ hk h => exact .ended iter hk (h.congr hwithin hdisjoint)

theorem nextNode_start (h : Underway mem₀ mem .root t) (hch : Children mem₀.left mem₀.right t)
    (hn : (inorder t).Nodup) (hfuel : 2 * t.numNodes < fuel) :
    ∃ root iter mem', nextNode fuel mem (top t) none false = some (root, iter, mem') ∧
      Within t mem mem' ∧ At mem₀ mem' t 0 root iter := by
  rw [← topOr_none]
  exact nextLoop_spec (t := t) h rfl hch hn rfl (by omega) none

theorem At.next (h : At mem₀ mem t k (some a) iter) (hch : Children mem₀.left mem₀.right t)
    (hn : (inorder t).Nodup) (hfuel : 2 * t.numNodes < fuel) :
    ∃ root iter' mem', nextNode fuel mem (some a) iter true = some (root, iter', mem') ∧
      Within t mem mem' ∧ At mem₀ mem' t (k + 1) root iter' := by
  cases h with
  | node up a l r htree hk h =>
    have hsize := numNodes_le_fill up (.node a l r)
    rw [htree, BinaryTree.numNodes] at hsize
    have hbefore : (Path.right up a l).before.length = k + 1 := by
      rw [← hk, Path.before, ← List.append_assoc, List.length_append]
      rfl
    exact nextLoop_spec (p := .right up a l) (s := r) ⟨h.val, h.left, h.right⟩ htree hch hn hbefore
      (by omega) _

/-- The node with the number `k`, if there is one, is left of no other node. -/
def OnSpine (t : BinaryTree Address) (k : ℕ) : Prop := ∀ a, (inorder t)[k]? = some a → a ∈ spine t

theorem At.right_iff (h : At mem₀ mem t k root iter) (hch : Children mem₀.left mem₀.right t)
    (hn : (inorder t).Nodup) : (∀ a ∈ inorder t, mem.right a = mem₀.right a) ↔ OnSpine t k := by
  have hroot := h.root_eq
  unfold OnSpine
  rw [← hroot]
  cases h with
  | ended _ hk h => exact iff_of_true h.right (by simp)
  | node up a l r htree hk h =>
    subst htree
    have hmem : a ∈ inorder (.node a l r) := List.mem_append_right _ List.mem_cons_self
    have hspine : a ∈ spine (up.fill (.node a l r)) ↔ up.Straight :=
      (Path.mem_spine_fill hn hmem).trans (and_iff_right List.mem_cons_self)
    have hthreads : (∀ c ∈ inorder (up.fill (.node a l r)), mem.right c = mem₀.right c) ↔
        ∀ c ∈ inorder (up.fill (.node a l r)),
          up.threads mem₀.right (.node a l r) c = mem₀.right c :=
      forall₂_congr fun c hc => by rw [h.right c hc]
    rw [hthreads, Path.threads_eq_iff hch, ← hspine]
    exact ⟨fun ha c hc => Option.some.inj hc ▸ ha, fun h => h a rfl⟩

/-! ## Both trees -/

/-- The values in order. -/
def vals (mem : Memory) (t : BinaryTree Address) : List Int32 := (inorder t).map mem.val

/-- How long two lists are the same. -/
def commonLength : List Int32 → List Int32 → ℕ
  | a :: as, b :: bs => if a = b then commonLength as bs + 1 else 0
  | _, _ => 0

/-- All pointers are as they were. -/
def Unchanged (mem mem' : Memory) (t : BinaryTree Address) : Prop :=
  ∀ a ∈ inorder t, mem'.left a = mem.left a ∧ mem'.right a = mem.right a

theorem At.unchanged (h : At mem₀ mem t k root iter) (hch : Children mem₀.left mem₀.right t)
    (hn : (inorder t).Nodup) : Unchanged mem₀ mem t ↔ OnSpine t k := by
  have hleft : mem.left = mem₀.left := by
    cases h with
    | node up a l r htree hk h => exact h.left
    | ended _ hk h => exact h.left
  rw [← h.right_iff hch hn]
  exact forall₂_congr fun a _ => and_iff_right (congrFun hleft a)

theorem At.val_eq (h : At mem₀ mem t k root iter) : mem.val = mem₀.val := by
  cases h with
  | node up a l r htree hk h => exact h.val
  | ended _ hk h => exact h.val

theorem drop_vals (mem : Memory) (h : (inorder t)[k]? = some a) :
    (vals mem t).drop k = mem.val a :: (vals mem t).drop (k + 1) := by
  obtain ⟨hk, hget⟩ := List.getElem?_eq_some_iff.mp h
  have hk' : k < (vals mem t).length := by rwa [vals, List.length_map]
  rw [List.drop_eq_getElem_cons hk']
  simp [vals, hget]

theorem drop_vals_nil (mem : Memory) (h : (inorder t)[k]? = none) :
    (vals mem t).drop k = [] := by
  apply List.drop_eq_nil_of_le
  rw [vals, List.length_map]
  exact List.getElem?_eq_none_iff.mp h

/-- What the comparison returns, and where it leaves threads. -/
structure Compared (mem mem' : Memory) (t₁ t₂ : BinaryTree Address) (k : ℕ) (equal : Bool) :
    Prop where
  equal : equal = decide ((vals mem t₁).drop k = (vals mem t₂).drop k)
  left : Unchanged mem mem' t₁ ↔
    OnSpine t₁ (k + commonLength ((vals mem t₁).drop k) ((vals mem t₂).drop k))
  right : Unchanged mem mem' t₂ ↔
    OnSpine t₂ (k + commonLength ((vals mem t₁).drop k) ((vals mem t₂).drop k))

theorem At.le (h : At mem₀ mem t k root iter) : k ≤ t.numNodes := by
  rw [← length_inorder]
  cases h with
  | ended _ hk h => exact Nat.le_of_eq hk.symm
  | node up a l r htree hk h =>
    rw [← hk, ← htree, Path.inorder_fill]
    simp only [inorder, List.length_append, List.length_cons]
    omega

theorem At.lt (h : At mem₀ mem t k (some a) iter) : k < t.numNodes := by
  rw [← length_inorder]
  exact (List.getElem?_eq_some_iff.mp h.root_eq.symm).1

/-- Where the values are different, or a traversal has ended, nothing more is done. -/
theorem compared_end {equal : Bool} (hch₁ : Children mem₀.left mem₀.right t₁)
    (hch₂ : Children mem₀.left mem₀.right t₂) (hn₁ : (inorder t₁).Nodup) (hn₂ : (inorder t₂).Nodup)
    {root₁ root₂ iter₁ iter₂ : Option Address} (h₁ : At mem₀ mem t₁ k root₁ iter₁)
    (h₂ : At mem₀ mem t₂ k root₂ iter₂)
    (hequal : equal = decide ((vals mem₀ t₁).drop k = (vals mem₀ t₂).drop k))
    (hlen : commonLength ((vals mem₀ t₁).drop k) ((vals mem₀ t₂).drop k) = 0) :
    Compared mem₀ mem t₁ t₂ k equal := by
  refine ⟨hequal, ?_, ?_⟩
  · rw [hlen]
    exact h₁.unchanged hch₁ hn₁
  · rw [hlen]
    exact h₂.unchanged hch₂ hn₂

/-- The nodes with the number `k` have the same value. -/
theorem Compared.cons {equal : Bool} (h : Compared mem mem' t₁ t₂ (k + 1) equal)
    (hcons₁ : (vals mem t₁).drop k = mem.val a :: (vals mem t₁).drop (k + 1))
    (hcons₂ : (vals mem t₂).drop k = mem.val b :: (vals mem t₂).drop (k + 1))
    (hval : mem.val a = mem.val b) : Compared mem mem' t₁ t₂ k equal := by
  have hlen : k + commonLength ((vals mem t₁).drop k) ((vals mem t₂).drop k) =
      k + 1 + commonLength ((vals mem t₁).drop (k + 1)) ((vals mem t₂).drop (k + 1)) := by
    rw [hcons₁, hcons₂, commonLength, if_pos hval]
    omega
  refine ⟨?_, ?_, ?_⟩
  · rw [h.equal, hcons₁, hcons₂, hval]
    simp
  · rw [hlen]
    exact h.left
  · rw [hlen]
    exact h.right

theorem compare_spec {root₁ root₂ iter₁ iter₂ : Option Address}
    (hch₁ : Children mem₀.left mem₀.right t₁) (hch₂ : Children mem₀.left mem₀.right t₂)
    (hn : (inorder t₁ ++ inorder t₂).Nodup) (h₁ : At mem₀ mem t₁ k root₁ iter₁)
    (h₂ : At mem₀ mem t₂ k root₂ iter₂) (hfuel : 3 * t₁.numNodes + 2 * t₂.numNodes < fuel + k) :
    ∃ equal mem', compare fuel mem root₁ root₂ iter₁ iter₂ = some (equal, mem') ∧
      Compared mem₀ mem' t₁ t₂ k equal := by
  obtain ⟨hn₁, hn₂, hdisjoint⟩ := List.nodup_append.mp hn
  induction fuel generalizing mem root₁ root₂ iter₁ iter₂ k with
  | zero =>
    have := h₁.le
    omega
  | succ fuel ih =>
    have hget₁ := h₁.root_eq
    have hget₂ := h₂.root_eq
    cases root₁ with
    | none =>
      have hnil := drop_vals_nil mem₀ hget₁.symm
      refine ⟨_, mem, rfl, compared_end hch₁ hch₂ hn₁ hn₂ h₁ h₂ ?_ ?_⟩
      · rw [hnil]
        cases root₂ with
        | none =>
          rw [drop_vals_nil mem₀ hget₂.symm]
          rfl
        | some b =>
          rw [drop_vals mem₀ hget₂.symm]
          rfl
      · rw [hnil, commonLength]
        simp
    | some a =>
      have hcons₁ := drop_vals mem₀ hget₁.symm
      cases root₂ with
      | none =>
        have hnil := drop_vals_nil mem₀ hget₂.symm
        refine ⟨_, mem, rfl, compared_end hch₁ hch₂ hn₁ hn₂ h₁ h₂ ?_ ?_⟩
        · rw [hnil, hcons₁]
          rfl
        · rw [hnil, commonLength]
          simp
      | some b =>
        have hcons₂ := drop_vals mem₀ hget₂.symm
        rw [compare, h₁.val_eq]
        by_cases hval : mem₀.val a = mem₀.val b
        · have hlt := h₁.lt
          have henough₁ : 2 * t₁.numNodes < fuel := by omega
          have henough₂ : 2 * t₂.numNodes < fuel := by omega
          obtain ⟨root₁, iter₁, mem', heq₁, hwithin₁, hat₁⟩ := h₁.next hch₁ hn₁ henough₁
          have hat₂' := h₂.congr hwithin₁ fun c hc hc' => hdisjoint c hc' c hc rfl
          obtain ⟨root₂, iter₂, mem'', heq₂, hwithin₂, hat₂⟩ := hat₂'.next hch₂ hn₂ henough₂
          have hat₁' := hat₁.congr hwithin₂ fun c hc hc' => hdisjoint c hc c hc' rfl
          obtain ⟨equal, last, heq, hcompared⟩ := ih hat₁' hat₂ (by omega)
          refine ⟨equal, last, ?_, ?_⟩
          · rw [if_neg (not_not.mpr hval)]
            simp only [heq₁, heq₂, Option.bind_eq_bind, Option.bind_some]
            exact heq
          · exact hcompared.cons hcons₁ hcons₂ hval
        · refine ⟨_, mem, if_pos hval, compared_end hch₁ hch₂ hn₁ hn₂ h₁ h₂ ?_ ?_⟩
          · rw [hcons₁, hcons₂]
            simp [hval]
          · rw [hcons₁, hcons₂, commonLength, if_neg hval]

/-- For two trees without common nodes the result says whether the values in order are the same. A
tree is changed exactly where the first node that is different from the other tree's, or has no
counterpart there, is left of another node. -/
theorem sameInorder_spec (hch₁ : Children mem.left mem.right t₁)
    (hch₂ : Children mem.left mem.right t₂) (hn : (inorder t₁ ++ inorder t₂).Nodup)
    (hfuel : 3 * (t₁.numNodes + t₂.numNodes) < fuel) :
    ∃ equal mem', sameInorder fuel mem (top t₁) (top t₂) = some (equal, mem') ∧
      Compared mem mem' t₁ t₂ 0 equal := by
  obtain ⟨hn₁, hn₂, hdisjoint⟩ := List.nodup_append.mp hn
  have henough₁ : 2 * t₁.numNodes < fuel := by omega
  have henough₂ : 2 * t₂.numNodes < fuel := by omega
  obtain ⟨root₁, iter₁, mem', heq₁, hwithin₁, hat₁⟩ :=
    nextNode_start ⟨rfl, rfl, fun _ _ => rfl⟩ hch₁ hn₁ henough₁
  have hunder : Underway mem mem .root t₂ := ⟨rfl, rfl, fun _ _ => rfl⟩
  obtain ⟨root₂, iter₂, mem'', heq₂, hwithin₂, hat₂⟩ :=
    nextNode_start (hunder.congr hwithin₁ fun c hc hc' => hdisjoint c hc' c hc rfl) hch₂ hn₂
      henough₂
  have hat₁' := hat₁.congr hwithin₂ fun c hc hc' => hdisjoint c hc c hc' rfl
  have henough : 3 * t₁.numNodes + 2 * t₂.numNodes < fuel + 0 := by omega
  obtain ⟨equal, last, heq, hcompared⟩ := compare_spec hch₁ hch₂ hn hat₁' hat₂ henough
  refine ⟨equal, last, ?_, hcompared⟩
  unfold sameInorder
  simp only [heq₁, heq₂, Option.bind_eq_bind, Option.bind_some]
  exact heq

theorem sameInorder_eq (hch₁ : Children mem.left mem.right t₁)
    (hch₂ : Children mem.left mem.right t₂) (hn : (inorder t₁ ++ inorder t₂).Nodup)
    (hfuel : 3 * (t₁.numNodes + t₂.numNodes) < fuel) :
    ∃ mem', sameInorder fuel mem (top t₁) (top t₂) =
      some (decide (vals mem t₁ = vals mem t₂), mem') := by
  obtain ⟨equal, mem', heq, hcompared⟩ := sameInorder_spec hch₁ hch₂ hn hfuel
  refine ⟨mem', ?_⟩
  rw [heq, hcompared.equal, List.drop_zero, List.drop_zero]

/-- The pointers of both trees are what they were, unless the traversal of one of them stops on the
left of a node. -/
theorem unchanged_iff (hch₁ : Children mem.left mem.right t₁)
    (hch₂ : Children mem.left mem.right t₂) (hn : (inorder t₁ ++ inorder t₂).Nodup)
    (hfuel : 3 * (t₁.numNodes + t₂.numNodes) < fuel) :
    ∃ equal mem', sameInorder fuel mem (top t₁) (top t₂) = some (equal, mem') ∧
      (Unchanged mem mem' t₁ ∧ Unchanged mem mem' t₂ ↔
        OnSpine t₁ (commonLength (vals mem t₁) (vals mem t₂)) ∧
          OnSpine t₂ (commonLength (vals mem t₁) (vals mem t₂))) := by
  obtain ⟨equal, mem', heq, hcompared⟩ := sameInorder_spec hch₁ hch₂ hn hfuel
  refine ⟨equal, mem', heq, ?_⟩
  have hleft := hcompared.left
  have hright := hcompared.right
  rw [Nat.zero_add, List.drop_zero, List.drop_zero] at hleft hright
  exact and_congr hleft hright

/-- The node 1 on the left of 2, and the node 3 by itself. -/
def twoTrees : Memory where
  val a := Int32.ofNat a
  left a := if a = 2 then some 1 else none
  right _ := none

theorem children_twoTrees :
    Children twoTrees.left twoTrees.right (.node 2 (.node 1 .nil .nil) .nil) ∧
      Children twoTrees.left twoTrees.right (.node 3 .nil .nil) := by
  simp [Children, top, twoTrees]

theorem sameInorder_eq_two : ∃ mem', sameInorder 10 twoTrees (some 2) (some 3) =
    some (false, mem') :=
  sameInorder_eq children_twoTrees.1 children_twoTrees.2 (by decide) (by decide)

theorem unchanged_iff_two : ∃ equal mem', sameInorder 10 twoTrees (some 2) (some 3) =
    some (equal, mem') ∧
      (Unchanged twoTrees mem' (.node 2 (.node 1 .nil .nil) .nil) ∧
          Unchanged twoTrees mem' (.node 3 .nil .nil) ↔
        OnSpine (.node 2 (.node 1 .nil .nil) .nil) 0 ∧ OnSpine (.node 3 .nil .nil) 0) :=
  unchanged_iff children_twoTrees.1 children_twoTrees.2 (by decide) (by decide)

/-- The comparison of 1 with 3 leaves the right pointer of the first node as a thread. -/
theorem changed_two : ∃ mem', sameInorder 10 twoTrees (some 2) (some 3) = some (false, mem') ∧
    ¬ Unchanged twoTrees mem' (.node 2 (.node 1 .nil .nil) .nil) := by
  refine ⟨twoTrees.setRight 1 (some 2), rfl, fun h => ?_⟩
  have hright := (h 1 (by decide)).2
  simp [setRight_right, twoTrees] at hright

end InterviewQuestions.ParallelInorder

import InterviewQuestions.Library.CountingTree
import InterviewQuestions.Library.PointerTree
import Mathlib.Algebra.Order.Ring.Int
import Mathlib.Data.Int.Notation
import Mathlib.Data.List.Induction
import Mathlib.Data.List.Perm.Subperm
import Mathlib.Data.Nat.Notation
import Mathlib.Logic.Function.Basic

/-! The stream of `sorting_searching/int_stream/solution.c`. The memory holds a node at
every address, and the list of those that are allocated. A loop makes at most one
iteration more than there are such nodes, or runs out of fuel. -/
namespace InterviewQuestions.IntStream

abbrev Address := ℕ

structure TreeNode where
  value : Int32
  occurrences : UInt32
  leftChildren : UInt32
  left : Option Address
  right : Option Address

structure Memory where
  node : Address → TreeNode
  live : List Address

namespace Memory

def value (mem : Memory) (a : Address) : Int32 := (mem.node a).value

def occurrences (mem : Memory) (a : Address) : UInt32 := (mem.node a).occurrences

def leftChildren (mem : Memory) (a : Address) : UInt32 := (mem.node a).leftChildren

def left (mem : Memory) (a : Address) : Option Address := (mem.node a).left

def right (mem : Memory) (a : Address) : Option Address := (mem.node a).right

def write (mem : Memory) (a : Address) (n : TreeNode) : Memory :=
  { mem with node := Function.update mem.node a n }

/-- `a->occurrences++` -/
def addOccurrence (mem : Memory) (a : Address) : Memory :=
  mem.write a { mem.node a with occurrences := mem.occurrences a + 1 }

/-- `a->left_children++` -/
def addLeftChild (mem : Memory) (a : Address) : Memory :=
  mem.write a { mem.node a with leftChildren := mem.leftChildren a + 1 }

def setLeft (mem : Memory) (a : Address) (p : Option Address) : Memory :=
  mem.write a { mem.node a with left := p }

def setRight (mem : Memory) (a : Address) (p : Option Address) : Memory :=
  mem.write a { mem.node a with right := p }

/-- The node that `tree_insert` makes of the block `a`. -/
def newNode (mem : Memory) (a : Address) (value : Int32) : Memory :=
  { mem.write a ⟨value, 1, 0, none, none⟩ with live := a :: mem.live }

end Memory

/-- The node found, if any, and `lower_nodes`. -/
def treeFind (mem : Memory) (root : Option Address) (value : Int32) :
    Option (Option Address × UInt32) :=
  loop (mem.live.length + 1) root 0
where
  loop : ℕ → Option Address → UInt32 → Option (Option Address × UInt32)
    | 0, _, _ => none
    | _ + 1, none, lowerNodes => some (none, lowerNodes)
    | fuel + 1, some root, lowerNodes =>
        if mem.value root ≠ value then
          if value < mem.value root then loop fuel (mem.left root) lowerNodes
          else
            loop fuel (mem.right root)
              (lowerNodes + (mem.leftChildren root + mem.occurrences root))
        else some (some root, lowerNodes)

/-- `block` is what `malloc` returns. -/
def treeInsert (mem : Memory) (root : Option Address) (value : Int32) (block : Address) :
    Option (Memory × Option Address) :=
  (loop (mem.live.length + 1) mem none root).map fun
    | (mem, none) => (mem, root)
    | (mem, some none) => (mem.newNode block value, some block)
    | (mem, some (some prev)) =>
        let mem := mem.newNode block value
        if value < mem.value prev then (mem.setLeft prev (some block), root)
        else (mem.setRight prev (some block), root)
where
  /-- The memory, and `prev` unless a node with the value was counted up. -/
  loop : ℕ → Memory → Option Address → Option Address → Option (Memory × Option (Option Address))
    | 0, _, _, _ => none
    | _ + 1, mem, prev, none => some (mem, some prev)
    | fuel + 1, mem, _, some curr =>
        if value = mem.value curr then some (mem.addOccurrence curr, none)
        else if value < mem.value curr then
          let mem := mem.addLeftChild curr
          loop fuel mem (some curr) (mem.left curr)
        else loop fuel mem (some curr) (mem.right curr)

/-- The memory and the `root` of the file. -/
structure State where
  mem : Memory
  root : Option Address

/-- No node, in a memory of any contents. -/
def State.empty (node : Address → TreeNode) : State := ⟨⟨node, []⟩, none⟩

/-- The block depends on those that are allocated. -/
def track (malloc : List Address → Address) (s : State) (x : Int32) : Option State :=
  (treeInsert s.mem s.root x (malloc s.mem.live)).map fun ret => ⟨ret.1, ret.2⟩

def rank (s : State) (x : Int32) : Option Int32 :=
  (treeFind s.mem s.root x).map fun
    | (none, _) => -1
    | (some n, lessThan) => (lessThan + s.mem.leftChildren n + s.mem.occurrences n - 1).toInt32

def trackAll (malloc : List Address → Address) (s : State) (xs : List Int32) : Option State :=
  xs.foldlM (track malloc) s

/-- The number of values up to `x` but for one that is `x` itself. -/
def rankOf (xs : List Int32) (x : Int32) : ℤ :=
  if x ∈ xs then (xs.countP (· ≤ x) : ℤ) - 1 else -1

/-! The tree in memory holds a counting search tree, its counts in 32 bits. Insertion
counts on the way down and hangs a new node into the hole where it ends. -/

open Library Library.PointerTree Library.CountingTree

variable {mem mem' : Memory} {t : BinaryTree Address} {f : BinaryTree (Counter ℤ)}
  {q : Path Address} {x : Int32} {a u : Address} {v prev : Option Address}

/-- The value of a node as an integer, and its counts. -/
def TreeNode.counts (n : TreeNode) : ℤ × UInt32 × UInt32 :=
  (n.value.toInt, n.occurrences, n.leftChildren)

def wrap (c : Counter ℤ) : ℤ × UInt32 × UInt32 :=
  (c.value, UInt32.ofNat c.occurrences, UInt32.ofNat c.below)

namespace Memory

def counts (mem : Memory) (a : Address) : ℤ × UInt32 × UInt32 := (mem.node a).counts

theorem left_write (n : TreeNode) : (mem.write a n).left = Function.update mem.left a n.left :=
  Function.comp_update TreeNode.left mem.node a n

theorem right_write (n : TreeNode) : (mem.write a n).right = Function.update mem.right a n.right :=
  Function.comp_update TreeNode.right mem.node a n

theorem counts_write (n : TreeNode) :
    (mem.write a n).counts = Function.update mem.counts a n.counts :=
  Function.comp_update TreeNode.counts mem.node a n

@[simp] theorem left_addOccurrence : (mem.addOccurrence a).left = mem.left :=
  (left_write _).trans (Function.update_eq_self a mem.left)

@[simp] theorem right_addOccurrence : (mem.addOccurrence a).right = mem.right :=
  (right_write _).trans (Function.update_eq_self a mem.right)

@[simp] theorem left_addLeftChild : (mem.addLeftChild a).left = mem.left :=
  (left_write _).trans (Function.update_eq_self a mem.left)

@[simp] theorem right_addLeftChild : (mem.addLeftChild a).right = mem.right :=
  (right_write _).trans (Function.update_eq_self a mem.right)

@[simp] theorem left_setLeft : (mem.setLeft a v).left = Function.update mem.left a v :=
  left_write _

@[simp] theorem right_setLeft : (mem.setLeft a v).right = mem.right :=
  (right_write _).trans (Function.update_eq_self a mem.right)

@[simp] theorem counts_setLeft : (mem.setLeft a v).counts = mem.counts :=
  (counts_write _).trans (Function.update_eq_self a mem.counts)

@[simp] theorem left_setRight : (mem.setRight a v).left = mem.left :=
  (left_write _).trans (Function.update_eq_self a mem.left)

@[simp] theorem right_setRight : (mem.setRight a v).right = Function.update mem.right a v :=
  right_write _

@[simp] theorem counts_setRight : (mem.setRight a v).counts = mem.counts :=
  (counts_write _).trans (Function.update_eq_self a mem.counts)

theorem counts_addOccurrence {c : Counter ℤ} (h : mem.counts a = wrap c) :
    (mem.addOccurrence a).counts =
      Function.update mem.counts a (wrap { c with occurrences := c.occurrences + 1 }) := by
  have hvalue : (mem.node a).value.toInt = c.value := congrArg Prod.fst h
  have hoccurrences : mem.occurrences a = UInt32.ofNat c.occurrences := congrArg (·.2.1) h
  have hbelow : (mem.node a).leftChildren = UInt32.ofNat c.below := congrArg (·.2.2) h
  unfold addOccurrence
  rw [counts_write, TreeNode.counts, wrap, hvalue, hoccurrences, hbelow, UInt32.ofNat_add]
  rfl

theorem counts_addLeftChild {c : Counter ℤ} (h : mem.counts a = wrap c) :
    (mem.addLeftChild a).counts =
      Function.update mem.counts a (wrap { c with below := c.below + 1 }) := by
  have hvalue : (mem.node a).value.toInt = c.value := congrArg Prod.fst h
  have hoccurrences : (mem.node a).occurrences = UInt32.ofNat c.occurrences := congrArg (·.2.1) h
  have hbelow : mem.leftChildren a = UInt32.ofNat c.below := congrArg (·.2.2) h
  unfold addLeftChild
  rw [counts_write, TreeNode.counts, wrap, hvalue, hoccurrences, hbelow, UInt32.ofNat_add]
  rfl

end Memory

/-- The memory holds the tree `t` of live nodes, with the counts of `f`. -/
structure Linked (mem : Memory) (t : BinaryTree Address) (f : BinaryTree (Counter ℤ)) : Prop where
  children : Children mem.left mem.right t
  nodup : (inorder t).Nodup
  live : ∀ a ∈ inorder t, a ∈ mem.live
  counts : t.map mem.counts = f.map wrap

theorem Linked.numNodes_lt (h : Linked mem t f) : t.numNodes < mem.live.length + 1 := by
  rw [← length_inorder]
  exact Nat.lt_succ_of_le (List.subperm_of_subset h.nodup h.live).length_le

/-- A node of one tree is where a node of the other is. -/
theorem map_node_cases {β : Type*} {g : Address → β} {k : Counter ℤ → β} {l r : BinaryTree Address}
    (h : (BinaryTree.node a l r).map g = f.map k) :
    ∃ c fl fr, f = .node c fl fr ∧ g a = k c ∧ l.map g = fl.map k ∧ r.map g = fr.map k := by
  cases f with
  | nil => cases h
  | node c fl fr =>
    simp only [BinaryTree.map, BinaryTree.node.injEq] at h
    exact ⟨c, fl, fr, rfl, h⟩

theorem map_nil_cases {β : Type*} {g : Address → β} {k : Counter ℤ → β}
    (h : BinaryTree.nil.map g = f.map k) : f = .nil := by
  cases f with
  | nil => rfl
  | node c fl fr => cases h

theorem map_node {β : Type*} {g : Address → β} {k : Counter ℤ → β} {l r : BinaryTree Address}
    {c : Counter ℤ} {fl fr : BinaryTree (Counter ℤ)} (ha : g a = k c) (hl : l.map g = fl.map k)
    (hr : r.map g = fr.map k) :
    (BinaryTree.node a l r).map g = (BinaryTree.node c fl fr).map k := by
  rw [BinaryTree.map, BinaryTree.map, ha, hl, hr]

/-! ## The search -/

theorem findLoop_spec (x : Int32) (less : ℕ) {fuel : ℕ} (h : Children mem.left mem.right t)
    (hcounts : t.map mem.counts = f.map wrap) (hfuel : t.numNodes < fuel) :
    (find x.toInt f less = none ∧
      ∃ w, treeFind.loop mem x fuel (top t) (UInt32.ofNat less) = some (none, w)) ∨
    ∃ a c less', find x.toInt f less = some (c, less') ∧ mem.counts a = wrap c ∧
      treeFind.loop mem x fuel (top t) (UInt32.ofNat less) =
        some (some a, UInt32.ofNat less') := by
  induction t generalizing f fuel less with
  | nil =>
    cases fuel with
    | zero => omega
    | succ fuel =>
      rw [map_nil_cases hcounts]
      exact Or.inl ⟨rfl, _, rfl⟩
  | node a l r ihl ihr =>
    cases fuel with
    | zero => omega
    | succ fuel =>
      rcases map_node_cases hcounts with ⟨c, fl, fr, rfl, ha, hl, hr⟩
      rcases h with ⟨hleft, hright, hcl, hcr⟩
      have hvalue : (mem.value a).toInt = c.value := congrArg Prod.fst ha
      rw [BinaryTree.numNodes] at hfuel
      simp only [top, treeFind.loop, find]
      by_cases heq : mem.value a = x
      · rw [if_neg (not_not_intro heq), if_pos (by rw [← hvalue, heq])]
        exact Or.inr ⟨a, c, less, rfl, ha, rfl⟩
      rw [if_pos heq, if_neg (fun h => heq (Int32.toInt_inj.mp (hvalue.trans h)))]
      by_cases hlt : x < mem.value a
      · rw [if_pos hlt, if_pos (hvalue ▸ Int32.lt_iff_toInt_lt.mp hlt), hleft]
        exact ihl less hcl hl (by omega)
      · have hsum : UInt32.ofNat less + (mem.leftChildren a + mem.occurrences a) =
            UInt32.ofNat (less + (c.below + c.occurrences)) := by
          rw [show mem.leftChildren a = UInt32.ofNat c.below from congrArg (·.2.2) ha,
            show mem.occurrences a = UInt32.ofNat c.occurrences from congrArg (·.2.1) ha,
            UInt32.ofNat_add, UInt32.ofNat_add]
        rw [if_neg hlt, if_neg (fun h => hlt (Int32.lt_iff_toInt_lt.mpr (hvalue ▸ h))), hright,
          hsum]
        exact ihr _ hcr hr (by omega)

/-! ## Insertion -/

/-- What the way down leaves alone. -/
structure Walked (mem : Memory) (t : BinaryTree Address) (mem' : Memory) : Prop where
  left : mem'.left = mem.left
  right : mem'.right = mem.right
  live : mem'.live = mem.live
  outside : ∀ b, b ∉ inorder t → mem'.counts b = mem.counts b

/-- The hole is on the side of its owner that `x` goes to. -/
def Goes (mem : Memory) (x : Int32) : Path Address → Prop
  | .root => True
  | .left _ a _ => x.toInt < (mem.counts a).1
  | .right _ a _ => ¬ x.toInt < (mem.counts a).1

theorem Goes.within {p : Path Address} (h : Goes mem x q) (hp : Goes mem x p) :
    Goes mem x (q.within p) := by
  cases q with
  | root => exact hp
  | left up a r => exact h
  | right up a l => exact h

/-- The way down ends at a node that is counted up, or at a hole for a new one. -/
def Descends (x : Int32) (u : Address) (fuel : ℕ) (mem : Memory) (prev : Option Address)
    (t : BinaryTree Address) (f : BinaryTree (Counter ℤ)) (mem' : Memory) : Prop :=
  (treeInsert.loop x fuel mem prev (top t) = some (mem', none) ∧
    t.map mem'.counts = (record x.toInt f).map wrap) ∨
  ∃ q : Path Address, q.fill .nil = t ∧ Goes mem' x q ∧
    treeInsert.loop x fuel mem prev (top t) = some (mem', some (q.owner.or prev)) ∧
    (q.fill (.node u .nil .nil)).map (Function.update mem'.counts u (x.toInt, 1, 0)) =
      (record x.toInt f).map wrap

theorem Walked.of_found {l r : BinaryTree Address} {c : Counter ℤ} (ha : mem.counts a = wrap c) :
    Walked mem (.node a l r) (mem.addOccurrence a) where
  left := Memory.left_addOccurrence
  right := Memory.right_addOccurrence
  live := rfl
  outside b hb := by
    rw [Memory.counts_addOccurrence ha]
    simp only [inorder, List.mem_append, List.mem_cons, not_or] at hb
    exact Function.update_of_ne hb.2.1 ..

/-- Trees apart from the one that is walked keep their counts. -/
theorem Walked.map_counts {t' : BinaryTree Address} (h : Walked mem t mem')
    (hapart : ∀ b ∈ inorder t', b ∉ inorder t) : t'.map mem'.counts = t'.map mem.counts :=
  map_congr_inorder fun b hb => h.outside b (hapart b hb)

/-- Counting a node up before going to the left of it. -/
theorem Walked.of_left {l r : BinaryTree Address} {c : Counter ℤ} (ha : mem.counts a = wrap c)
    (h : Walked (mem.addLeftChild a) l mem') : Walked mem (.node a l r) mem' where
  left := h.left.trans Memory.left_addLeftChild
  right := h.right.trans Memory.right_addLeftChild
  live := h.live
  outside b hb := by
    simp only [inorder, List.mem_append, List.mem_cons, not_or] at hb
    rw [h.outside b hb.1, Memory.counts_addLeftChild ha]
    exact Function.update_of_ne hb.2.1 ..

theorem Walked.of_right {l r : BinaryTree Address} (h : Walked mem r mem') :
    Walked mem (.node a l r) mem' where
  left := h.left
  right := h.right
  live := h.live
  outside b hb := by
    simp only [inorder, List.mem_append, List.mem_cons, not_or] at hb
    exact h.outside b hb.2.2

section Descends

variable {fuel : ℕ} {mem₁ : Memory} {l r : BinaryTree Address} {c : Counter ℤ}
  {fl fr : BinaryTree (Counter ℤ)}

/-- The way ends at a node with the value. -/
theorem Descends.found (heq : x = mem.value a) (ha : mem.counts a = wrap c)
    (hl : l.map mem.counts = fl.map wrap) (hr : r.map mem.counts = fr.map wrap)
    (hal : a ∉ inorder l) (har : a ∉ inorder r) :
    Descends x u (fuel + 1) mem prev (.node a l r) (.node c fl fr) (mem.addOccurrence a) := by
  have hvalue : x.toInt = c.value := by
    rw [heq]
    exact congrArg Prod.fst ha
  have hadd := Memory.counts_addOccurrence ha
  unfold Descends
  rw [record, if_pos hvalue]
  apply Or.inl
  apply And.intro
  · rw [top, treeInsert.loop, if_pos heq]
  · rw [hadd]
    apply map_node
    · exact Function.update_self ..
    · rw [map_update_of_notMem hal, hl]
    · rw [map_update_of_notMem har, hr]

/-- From the left subtree to the whole tree. -/
theorem Descends.left (h : Descends x u fuel mem₁ (some a) l fl mem')
    (hloop : treeInsert.loop x (fuel + 1) mem prev (some a) =
      treeInsert.loop x fuel mem₁ (some a) (top l))
    (hne' : ¬ x.toInt = c.value) (hlt : x.toInt < c.value)
    (ha : mem'.counts a = wrap { c with below := c.below + 1 })
    (hr : r.map mem'.counts = fr.map wrap) (hne : a ≠ u) (hur : u ∉ inorder r) :
    Descends x u (fuel + 1) mem prev (.node a l r) (.node c fl fr) mem' := by
  unfold Descends
  rw [record, if_neg hne', if_pos hlt]
  rcases h with ⟨hl, hmap⟩ | ⟨q, rfl, hgoes, hl, hmap⟩
  · exact Or.inl ⟨hloop.trans hl, map_node ha hmap hr⟩
  · refine Or.inr ⟨q.within (.left .root a r), Path.fill_within .., hgoes.within ?_, ?_, ?_⟩
    · show x.toInt < (mem'.counts a).1
      rw [ha]
      exact hlt
    · rw [Path.owner_within, Option.or_assoc]
      exact hloop.trans hl
    · rw [Path.fill_within]
      refine map_node ?_ hmap ?_
      · rw [Function.update_of_ne hne, ha]
      · rw [map_update_of_notMem hur]
        exact hr

/-- From the right subtree to the whole tree. -/
theorem Descends.right (h : Descends x u fuel mem (some a) r fr mem')
    (hloop : treeInsert.loop x (fuel + 1) mem prev (some a) =
      treeInsert.loop x fuel mem (some a) (top r))
    (hne' : ¬ x.toInt = c.value) (hge : ¬ x.toInt < c.value)
    (ha : mem'.counts a = wrap c) (hl : l.map mem'.counts = fl.map wrap)
    (hne : a ≠ u) (hul : u ∉ inorder l) :
    Descends x u (fuel + 1) mem prev (.node a l r) (.node c fl fr) mem' := by
  unfold Descends
  rw [record, if_neg hne', if_neg hge]
  rcases h with ⟨hr, hmap⟩ | ⟨q, rfl, hgoes, hr, hmap⟩
  · exact Or.inl ⟨hloop.trans hr, map_node ha hl hmap⟩
  · refine Or.inr ⟨q.within (.right .root a l), Path.fill_within .., hgoes.within ?_, ?_, ?_⟩
    · show ¬ x.toInt < (mem'.counts a).1
      rw [ha]
      exact hge
    · rw [Path.owner_within, Option.or_assoc]
      exact hloop.trans hr
    · rw [Path.fill_within]
      refine map_node ?_ ?_ hmap
      · rw [Function.update_of_ne hne, ha]
      · rw [map_update_of_notMem hul]
        exact hl

end Descends

theorem insertLoop_spec (x : Int32) {fuel : ℕ} (h : Children mem.left mem.right t)
    (hn : (inorder t).Nodup) (hcounts : t.map mem.counts = f.map wrap)
    (hfuel : t.numNodes < fuel) (hu : u ∉ inorder t) :
    ∃ mem', Walked mem t mem' ∧ Descends x u fuel mem prev t f mem' := by
  induction t generalizing f fuel mem prev with
  | nil =>
    cases fuel with
    | zero => omega
    | succ fuel =>
      rw [map_nil_cases hcounts]
      apply Exists.intro mem
      apply And.intro ⟨rfl, rfl, rfl, fun _ _ => rfl⟩
      apply Or.inr
      refine ⟨.root, rfl, trivial, rfl, map_node ?_ rfl rfl⟩
      exact Function.update_self ..
  | node a l r ihl ihr =>
    cases fuel with
    | zero => omega
    | succ fuel =>
      rcases map_node_cases hcounts with ⟨c, fl, fr, rfl, ha, hl, hr⟩
      rcases nodup_node.mp hn with ⟨⟨hal, har⟩, hnl, hnr, hdisjoint⟩
      rcases h with ⟨hleft, hright, hcl, hcr⟩
      have hvalue : (mem.value a).toInt = c.value := congrArg Prod.fst ha
      simp only [inorder, List.mem_append, List.mem_cons, not_or] at hu
      rw [BinaryTree.numNodes] at hfuel
      by_cases heq : x = mem.value a
      · exact ⟨_, Walked.of_found ha, Descends.found heq ha hl hr hal har⟩
      have hnv : ¬ x.toInt = c.value := fun h => heq (Int32.toInt_inj.mp (h.trans hvalue.symm))
      by_cases hlt : x < mem.value a
      · have hltv : x.toInt < c.value := hvalue ▸ Int32.lt_iff_toInt_lt.mp hlt
        have hadd := Memory.counts_addLeftChild ha
        have hl' : l.map (mem.addLeftChild a).counts = fl.map wrap := by
          rw [hadd, map_update_of_notMem hal, hl]
        have hroom : l.numNodes < fuel := by omega
        have hnext : ∃ mem', Walked (mem.addLeftChild a) l mem' ∧
            Descends x u fuel (mem.addLeftChild a) (some a) l fl mem' :=
          ihl (by simpa using hcl) hnl hl' hroom hu.1
        rcases hnext with ⟨mem', hwalk, hdesc⟩
        have hr' : r.map mem'.counts = fr.map wrap := by
          rw [hwalk.map_counts fun b hb hbl => hdisjoint b hbl hb, hadd, map_update_of_notMem har,
            hr]
        refine ⟨mem', Walked.of_left ha hwalk, hdesc.left ?_ hnv hltv ?_ hr'
          (Ne.symm hu.2.1) hu.2.2⟩
        · rw [treeInsert.loop, if_neg heq, if_pos hlt]
          simp only [Memory.left_addLeftChild, hleft]
        · rw [hwalk.outside a hal, hadd]
          exact Function.update_self ..
      · have hgev : ¬ x.toInt < c.value := fun h => hlt (Int32.lt_iff_toInt_lt.mpr (hvalue ▸ h))
        have hroom : r.numNodes < fuel := by omega
        have hnext : ∃ mem', Walked mem r mem' ∧ Descends x u fuel mem (some a) r fr mem' :=
          ihr hcr hnr hr hroom hu.2.2
        rcases hnext with ⟨mem', hwalk, hdesc⟩
        have hl' : l.map mem'.counts = fl.map wrap := by
          rw [hwalk.map_counts hdisjoint, hl]
        refine ⟨mem', Walked.of_right hwalk, hdesc.right ?_ hnv hgev ?_ hl'
          (Ne.symm hu.2.1) hu.1⟩
        · rw [treeInsert.loop, if_neg heq, if_neg hlt, hright]
        · rw [hwalk.outside a har, ha]

/-! ## The new node -/

theorem left_newNode : (mem.newNode u x).left = Function.update mem.left u none :=
  Memory.left_write _

theorem right_newNode : (mem.newNode u x).right = Function.update mem.right u none :=
  Memory.right_write _

theorem counts_newNode :
    (mem.newNode u x).counts = Function.update mem.counts u (x.toInt, 1, 0) :=
  Memory.counts_write _

/-- What hanging the new node into the hole writes. -/
structure Hung (mem : Memory) (q : Path Address) (u : Address) (x : Int32) (mem' : Memory) :
    Prop where
  left : mem'.left = q.setLeft (Function.update mem.left u none) (some u)
  right : mem'.right = q.setRight (Function.update mem.right u none) (some u)
  counts : mem'.counts = Function.update mem.counts u (x.toInt, 1, 0)
  live : mem'.live = u :: mem.live

/-- The comparison with `prev` finds the side of the hole. -/
theorem hang_spec (h : Goes mem x q) (hu : u ∉ q.nodes) (root : Option Address) :
    ∃ mem', (match q.owner with
      | none => (mem.newNode u x, some u)
      | some prev =>
          if x < (mem.newNode u x).value prev then
            ((mem.newNode u x).setLeft prev (some u), root)
          else ((mem.newNode u x).setRight prev (some u), root)) =
        (mem', if q.owner = none then some u else root) ∧ Hung mem q u x mem' := by
  have hvalue : ∀ a ∈ q.nodes, ((mem.newNode u x).value a).toInt = (mem.counts a).1 := by
    intro a ha
    calc ((mem.newNode u x).value a).toInt = ((mem.newNode u x).counts a).1 := rfl
      _ = (mem.counts a).1 := by
        rw [counts_newNode, Function.update_of_ne (ne_of_mem_of_not_mem ha hu)]
  cases q with
  | root => exact ⟨_, rfl, left_newNode, right_newNode, counts_newNode, rfl⟩
  | left up a r =>
    have hlt : x < (mem.newNode u x).value a := by
      rw [Int32.lt_iff_toInt_lt, hvalue a (Path.owner_mem rfl)]
      exact h
    refine ⟨(mem.newNode u x).setLeft a (some u), if_pos hlt, ?_, ?_, ?_, rfl⟩
    · rw [Memory.left_setLeft, left_newNode]
      rfl
    · exact Memory.right_setLeft.trans right_newNode
    · exact Memory.counts_setLeft.trans counts_newNode
  | right up a l =>
    have hge : ¬ x < (mem.newNode u x).value a := by
      rw [Int32.lt_iff_toInt_lt, hvalue a (Path.owner_mem rfl)]
      exact h
    refine ⟨(mem.newNode u x).setRight a (some u), if_neg hge, ?_, ?_, ?_, rfl⟩
    · exact Memory.left_setRight.trans left_newNode
    · rw [Memory.right_setRight, right_newNode]
      rfl
    · exact Memory.counts_setRight.trans counts_newNode

/-- The tree with the new node in the hole. -/
theorem Hung.linked (hm : Hung mem q u x mem')
    (hch : Children mem.left mem.right (q.fill .nil)) (hn : (inorder (q.fill .nil)).Nodup)
    (hu : u ∉ q.nodes) (hlive : ∀ a ∈ q.nodes, a ∈ mem.live)
    (hcounts : (q.fill (.node u .nil .nil)).map (Function.update mem.counts u (x.toInt, 1, 0)) =
      f.map wrap) : Linked mem' (q.fill (.node u .nil .nil)) f := by
  have hnodup : (inorder (q.fill (.node u .nil .nil))).Nodup := by
    apply Path.nodup_fill.mpr
    apply And.intro (Path.nodup_fill.mp hn).1
    apply And.intro (List.pairwise_singleton _ u)
    intro a ha hau
    exact hu (List.mem_singleton.mp hau ▸ ha)
  constructor
  · rw [hm.left, hm.right]
    have hhole : q.Children (Function.update mem.left u none) (Function.update mem.right u none)
        none := by
      apply (Path.children_fill.mp hch).1.congr
      · exact fun a ha => Function.update_of_ne (ne_of_mem_of_not_mem ha hu) ..
      · exact fun a ha => Function.update_of_ne (ne_of_mem_of_not_mem ha hu) ..
    apply children_plug hhole (t := .node u .nil .nil) _ hnodup
    exact ⟨Function.update_self .., Function.update_self .., trivial, trivial⟩
  · exact hnodup
  · intro a ha
    rw [hm.live, List.mem_cons]
    rcases Path.mem_fill.mp ha with ha | ha
    · exact Or.inr (hlive a ha)
    · exact Or.inl (List.mem_singleton.mp ha)
  · rw [hm.counts]
    exact hcounts

/-- One insertion records the value. -/
theorem treeInsert_spec (h : Linked mem t f) (x : Int32) (hu : u ∉ mem.live) :
    ∃ mem' t', treeInsert mem (top t) x u = some (mem', top t') ∧
      Linked mem' t' (record x.toInt f) := by
  have hut : u ∉ inorder t := fun hmem => hu (h.live u hmem)
  have hloop : ∃ mem₁, Walked mem t mem₁ ∧
      Descends x u (mem.live.length + 1) mem none t f mem₁ :=
    insertLoop_spec x h.children h.nodup h.counts h.numNodes_lt hut
  rcases hloop with ⟨mem₁, hwalk, ⟨hfound, hmap⟩ | ⟨q, rfl, hgoes, hhole, hmap⟩⟩
  · refine ⟨mem₁, t, ?_, ?_, h.nodup, ?_, hmap⟩
    · rw [treeInsert, hfound]
      rfl
    · rw [hwalk.left, hwalk.right]
      exact h.children
    · rw [hwalk.live]
      exact h.live
  · have huq : u ∉ q.nodes := fun hmem => hut (Path.mem_fill.mpr (Or.inl hmem))
    rcases hang_spec hgoes huq (top (q.fill .nil)) with ⟨mem', hhang, hung⟩
    refine ⟨mem', q.fill (.node u .nil .nil), ?_, ?_⟩
    · have htop : top (q.fill (.node u .nil .nil)) =
          if q.owner = none then some u else top (q.fill .nil) := by
        rw [Path.top_fill, Path.top_fill]
        exact Path.topOf_eq q (top .nil) (some u)
      rw [treeInsert, hhole, Option.map_some, htop, ← hhang]
      cases q with
      | root => rfl
      | left up a r => rfl
      | right up a l => rfl
    · apply hung.linked _ h.nodup huq _ hmap
      · rw [hwalk.left, hwalk.right]
        exact h.children
      · intro a ha
        rw [hwalk.live]
        exact h.live a (Path.mem_fill.mpr (Or.inl ha))

end InterviewQuestions.IntStream

/-! After a stream, `rank` counts the values up to its argument as long as the number of
them fits the result. -/
namespace InterviewQuestions.IntStream

open Library Library.PointerTree Library.CountingTree

variable {malloc : List Address → Address} {s s' : State} {xs : List Int32} {x : Int32}

def ints (xs : List Int32) : List ℤ := xs.map Int32.toInt

theorem mem_ints : x.toInt ∈ ints xs ↔ x ∈ xs :=
  List.mem_map_of_injective fun _ _ h => Int32.toInt_inj.mp h

theorem countP_ints (xs : List Int32) (x : Int32) :
    (ints xs).countP (· ≤ x.toInt) = xs.countP (· ≤ x) := by
  unfold ints
  rw [List.countP_map]
  apply List.countP_congr
  intro y _
  simp only [Function.comp_apply, decide_eq_true_eq]
  exact Int32.le_iff_toInt_le.symm

/-- The tree in memory is the counting tree of the values. -/
def Tracks (s : State) (xs : List Int32) : Prop :=
  ∃ t, s.root = top t ∧ Linked s.mem t (build (ints xs))

theorem tracks_empty (node : Address → TreeNode) : Tracks (State.empty node) [] :=
  ⟨.nil, rfl, trivial, List.nodup_nil, fun _ ha => absurd ha List.not_mem_nil, rfl⟩

theorem track_spec (hmalloc : ∀ live, malloc live ∉ live) (h : Tracks s xs) (x : Int32) :
    ∃ s', track malloc s x = some s' ∧ Tracks s' (xs ++ [x]) := by
  rcases h with ⟨t, hroot, hlinked⟩
  rcases treeInsert_spec hlinked x (hmalloc s.mem.live) with ⟨mem', t', hinsert, hlinked'⟩
  refine ⟨⟨mem', top t'⟩, ?_, t', rfl, ?_⟩
  · rw [track, hroot, hinsert]
    rfl
  · have hints : ints (xs ++ [x]) = ints xs ++ [x.toInt] := List.map_append
    rw [hints, build_append]
    exact hlinked'

theorem trackAll_spec (hmalloc : ∀ live, malloc live ∉ live) (node : Address → TreeNode)
    (xs : List Int32) :
    ∃ s, trackAll malloc (State.empty node) xs = some s ∧ Tracks s xs := by
  induction xs using List.reverseRecOn with
  | nil => exact ⟨State.empty node, rfl, tracks_empty node⟩
  | append_singleton xs x ih =>
    rcases ih with ⟨s, hrun, htracks⟩
    rcases track_spec hmalloc htracks x with ⟨s', htrack, htracks'⟩
    refine ⟨s', ?_, htracks'⟩
    unfold trackAll at hrun ⊢
    rw [List.foldlM_append, hrun]
    simp [htrack]

/-- The result of `rank` is the count less one, in the 32 bits of an `int`. -/
theorem rank_spec (h : Tracks s xs) (x : Int32) :
    rank s x = some (if x ∈ xs then (UInt32.ofNat (xs.countP (· ≤ x)) - 1).toInt32 else -1) := by
  rcases h with ⟨t, hroot, hlinked⟩
  have hloop := findLoop_spec x 0 hlinked.children hlinked.counts hlinked.numNodes_lt
  unfold rank treeFind
  rw [hroot]
  by_cases hx : x ∈ xs
  · rcases find_build (ints xs) 0 (mem_ints.mpr hx) with ⟨c, less, hfind, hcount⟩
    rw [Nat.zero_add, countP_ints] at hcount
    rw [hfind] at hloop
    rcases hloop with ⟨hnone, _⟩ | ⟨a, c', less', hsome, hcounts, hloop⟩
    · cases hnone
    cases hsome
    have hbelow : s.mem.leftChildren a = UInt32.ofNat c.below := congrArg (·.2.2) hcounts
    have hoccurrences : s.mem.occurrences a = UInt32.ofNat c.occurrences :=
      congrArg (·.2.1) hcounts
    rw [if_pos hx, ← hcount, UInt32.ofNat_add, UInt32.ofNat_add, ← hbelow, ← hoccurrences]
    exact congrArg (Option.map _) hloop
  · have hfind := find_build_of_notMem (ints xs) 0 (mt mem_ints.mp hx)
    rw [hfind] at hloop
    rcases hloop with ⟨_, w, hloop⟩ | ⟨a, c, less, hsome, _⟩
    · rw [if_neg hx]
      exact congrArg (Option.map _) hloop
    · cases hsome

/-- A count less one, read as an `int`, is right up to 2^31. -/
theorem toInt_pred_iff {n : ℕ} (hn : 0 < n) :
    (UInt32.ofNat n - 1).toInt32.toInt = (n : ℤ) - 1 ↔ n ≤ 2 ^ 31 := by
  have hpred : UInt32.ofNat n - 1 = UInt32.ofNat (n - 1) := (UInt32.ofNat_sub hn).symm
  have hint : (UInt32.ofNat n - 1).toInt32.toInt = (((n - 1) % 2 ^ 32 : ℕ) : ℤ).bmod (2 ^ 32) := by
    rw [hpred, ← UInt32.toNat_ofNat']
    exact BitVec.toInt_eq_toNat_bmod _
  rw [hint, Int.bmod]
  omega

theorem rank_trackAll (hmalloc : ∀ live, malloc live ∉ live) (node : Address → TreeNode)
    (xs : List Int32) (x : Int32) :
    ((trackAll malloc (State.empty node) xs).bind fun s => rank s x) =
      some (if x ∈ xs then (UInt32.ofNat (xs.countP (· ≤ x)) - 1).toInt32 else -1) := by
  rcases trackAll_spec hmalloc node xs with ⟨s, hrun, htracks⟩
  rw [hrun]
  exact rank_spec htracks x

/-- An allocator that takes the block after all others. -/
def nextBlock (live : List Address) : Address := live.foldr max 0 + 1

theorem nextBlock_notMem (live : List Address) : nextBlock live ∉ live := by
  have hle : ∀ a ∈ live, a ≤ live.foldr max 0 := by
    induction live with
    | nil => exact fun a ha => absurd ha List.not_mem_nil
    | cons b live ih =>
      intro a ha
      rw [List.foldr_cons]
      rcases List.mem_cons.mp ha with rfl | ha
      · exact le_max_left ..
      · exact (ih a ha).trans (le_max_right ..)
  exact fun hmem => Nat.not_succ_le_self _ (hle _ hmem)

/-- `rank` is right exactly when its argument was never tracked, or the values up to it are
at most 2^31. -/
theorem rank_iff (hmalloc : ∀ live, malloc live ∉ live) (node : Address → TreeNode)
    (xs : List Int32) (x : Int32) :
    ((trackAll malloc (State.empty node) xs).bind fun s => rank s x).map Int32.toInt =
      some (rankOf xs x) ↔ (x ∈ xs → xs.countP (· ≤ x) ≤ 2 ^ 31) := by
  rw [rank_trackAll hmalloc node xs x, Option.map_some, Option.some_inj, rankOf]
  by_cases hx : x ∈ xs
  · have hpos : 0 < xs.countP (· ≤ x) := List.countP_pos_iff.mpr ⟨x, hx, by simp⟩
    rw [if_pos hx, if_pos hx, toInt_pred_iff hpos]
    exact ⟨fun h _ => h, fun h => h hx⟩
  · rw [if_neg hx, if_neg hx]
    exact iff_of_true rfl fun h => absurd h hx

/-- The rank of 4 in the stream of the comment of the file. -/
theorem rank_iff_sample :
    ((trackAll nextBlock (State.empty fun _ => ⟨0, 0, 0, none, none⟩)
      [5, 1, 4, 4, 5, 9, 7, 13, 3]).bind fun s => rank s 4).map Int32.toInt = some 3 := by
  have hsample := (rank_iff nextBlock_notMem (fun _ => ⟨0, 0, 0, none, none⟩)
    [5, 1, 4, 4, 5, 9, 7, 13, 3] 4).mpr (by decide)
  exact hsample

/-- One value tracked once more than an `int` counts. -/
theorem not_rank_all : ¬ ∀ malloc : List Address → Address, (∀ live, malloc live ∉ live) →
    ∀ node xs x, ((trackAll malloc (State.empty node) xs).bind fun s => rank s x).map Int32.toInt =
      some (rankOf xs x) := by
  intro hall
  have hcount : (List.replicate (2 ^ 31 + 1) (0 : Int32)).countP (· ≤ 0) = 2 ^ 31 + 1 := by
    rw [List.countP_replicate]
    rfl
  have hmem : (0 : Int32) ∈ List.replicate (2 ^ 31 + 1) 0 :=
    List.mem_replicate.mpr ⟨Nat.succ_ne_zero _, rfl⟩
  have hrank := hall nextBlock nextBlock_notMem (fun _ => ⟨0, 0, 0, none, none⟩)
    (List.replicate (2 ^ 31 + 1) 0) 0
  rw [rank_trackAll nextBlock_notMem, Option.map_some, Option.some_inj, rankOf, if_pos hmem,
    if_pos hmem, hcount, toInt_pred_iff (Nat.succ_pos _)] at hrank
  exact Nat.not_succ_le_self _ hrank

end InterviewQuestions.IntStream

import InterviewQuestions.Library.Scanf
import InterviewQuestions.Library.ThreadedTree
import Mathlib.Logic.Function.Basic

/-! `trees_graphs/traversal_without_recursion/solution.c`. There is no result where a loop has more
than `fuel` iterations. -/
namespace InterviewQuestions.MorrisTraversal

open Library Scanf

abbrev Address := ℕ

structure TreeNode where
  key : Int32
  left : Option Address
  right : Option Address

abbrev Memory := Address → TreeNode

/-- `a->right = p` -/
def Memory.setRight (mem : Memory) (a : Address) (p : Option Address) : Memory :=
  Function.update mem a { mem a with right := p }

/-- `printf("%d\n", key)` -/
def printKey (key : Int32) : List UInt8 := printInt key.toInt ++ [10]

/-- The loop that starts with `predecessor = curr->left`. -/
def findPredecessor (mem : Memory) (curr : Address) : ℕ → Address → Option Address
  | 0, _ => none
  | fuel + 1, predecessor =>
      match (mem predecessor).right with
      | none => some predecessor
      | some next =>
          if next = curr then some predecessor else findPredecessor mem curr fuel next

/-- The memory and what has been printed. `onThread` is printed before the thread to `curr` is set,
`onReturn` before it is removed. -/
def morris (onThread onReturn : Int32 → List UInt8) :
    ℕ → Memory → Option Address → List UInt8 → Option (Memory × List UInt8)
  | 0, _, _, _ => none
  | _ + 1, mem, none, printed => some (mem, printed)
  | fuel + 1, mem, some curr, printed =>
      match (mem curr).left with
      | none =>
          morris onThread onReturn fuel mem (mem curr).right (printed ++ printKey (mem curr).key)
      | some left => do
          let predecessor ← findPredecessor mem curr fuel left
          match (mem predecessor).right with
          | some _ =>
              let mem' := mem.setRight predecessor none
              morris onThread onReturn fuel mem' (mem' curr).right
                (printed ++ onReturn (mem curr).key)
          | none =>
              let mem' := mem.setRight predecessor (some curr)
              morris onThread onReturn fuel mem' (mem' curr).left
                (printed ++ onThread (mem curr).key)

def morrisInOrder (fuel : ℕ) (mem : Memory) (root : Option Address) :
    Option (Memory × List UInt8) :=
  morris (fun _ => []) printKey fuel mem root []

def morrisPreOrder (fuel : ℕ) (mem : Memory) (root : Option Address) :
    Option (Memory × List UInt8) :=
  morris printKey (fun _ => []) fuel mem root []

/-! Both traversals print the keys in order and put every thread that they set back to `NULL`. A
subtree whose last right pointer is a thread is walked to the node that the thread leads to. -/

open Library PointerTree Scanf

variable {mem : Memory} {next : Option Address} {t l r : BinaryTree Address} {a b curr : Address}
  {onThread onReturn : Int32 → List UInt8}

def Memory.left (mem : Memory) (a : Address) : Option Address := (mem a).left

def Memory.right (mem : Memory) (a : Address) : Option Address := (mem a).right

theorem setRight_left (p : Option Address) : (mem.setRight a p).left = mem.left := by
  funext b
  by_cases hb : b = a
  · rw [hb, Memory.left, Memory.setRight, Function.update_self]
    rfl
  · rw [Memory.left, Memory.setRight, Function.update_of_ne hb]
    rfl

theorem setRight_right (p : Option Address) :
    (mem.setRight a p).right = Function.update mem.right a p := by
  funext b
  by_cases hb : b = a
  · rw [hb, Memory.right, Memory.setRight, Function.update_self, Function.update_self]
  · rw [Memory.right, Memory.setRight, Function.update_of_ne hb, Function.update_of_ne hb]
    rfl

theorem setRight_key (p : Option Address) (b : Address) :
    (mem.setRight a p b).key = (mem b).key := by
  by_cases hb : b = a
  · rw [hb, Memory.setRight, Function.update_self]
  · rw [Memory.setRight, Function.update_of_ne hb]

/-- A thread that is removed leaves nothing behind. -/
theorem setRight_setRight (h : mem.right a = none) (p : Option Address) :
    (mem.setRight a p).setRight a none = mem := by
  funext b
  by_cases hb : b = a
  · rw [hb, Memory.setRight, Function.update_self, Memory.setRight, Function.update_self, ← h]
    rfl
  · rw [Memory.setRight, Function.update_of_ne hb, Memory.setRight, Function.update_of_ne hb]

/-! ## One subtree -/

theorem findPredecessor_eq_searchLast (mem : Memory) (curr : Address) (fuel : ℕ) (b : Address) :
    findPredecessor mem curr fuel b = searchLast mem.right curr fuel b := by
  induction fuel generalizing b with
  | zero => rfl
  | succ fuel ih =>
    rw [findPredecessor, searchLast, Memory.right]
    cases (mem b).right with
    | none => rfl
    | some next => simp only [ih]

theorem findPredecessor_eq (h : Threaded mem.left mem.right next (.node b l r))
    (hnext : next = none ∨ next = some curr) (hcurr : curr ∉ inorder (.node b l r)) {fuel : ℕ}
    (hfuel : (BinaryTree.node b l r).numNodes ≤ fuel) :
    findPredecessor mem curr fuel b = some (rightmost b r) := by
  rw [findPredecessor_eq_searchLast]
  exact searchLast_eq h hnext hcurr hfuel

/-- How often the loop is entered with a node of the tree. -/
def visits : BinaryTree Address → ℕ
  | .nil => 0
  | .node _ .nil r => 1 + visits r
  | .node _ l r => 1 + (visits l + (1 + visits r))

theorem visits_le (t : BinaryTree Address) : visits t ≤ 2 * t.numNodes := by
  fun_induction visits t with
  | case1 => exact Nat.zero_le _
  | case2 a r ih =>
    rw [BinaryTree.numNodes]
    omega
  | case3 a l r hl ihl ihr =>
    rw [BinaryTree.numNodes]
    omega

theorem visits_node (a b : Address) (l r r' : BinaryTree Address) :
    visits (.node a (.node b l r) r') = 1 + (visits (.node b l r) + (1 + visits r')) := by
  rw [visits]
  simp

/-- What is printed on the way through the tree. -/
def printed (onThread onReturn : Int32 → List UInt8) (mem : Memory) :
    BinaryTree Address → List UInt8
  | .nil => []
  | .node a .nil r => printKey (mem a).key ++ printed onThread onReturn mem r
  | .node a l r =>
      onThread (mem a).key ++ (printed onThread onReturn mem l ++
        (onReturn (mem a).key ++ printed onThread onReturn mem r))

theorem printed_node (a b : Address) (l r r' : BinaryTree Address) :
    printed onThread onReturn mem (.node a (.node b l r) r') =
      onThread (mem a).key ++ (printed onThread onReturn mem (.node b l r) ++
        (onReturn (mem a).key ++ printed onThread onReturn mem r')) := by
  rw [printed]
  simp

theorem printed_setRight (p : Option Address) (t : BinaryTree Address) :
    printed onThread onReturn (mem.setRight a p) t = printed onThread onReturn mem t := by
  fun_induction printed onThread onReturn mem t with
  | case1 => rfl
  | case2 b r ih => rw [printed, setRight_key, ih]
  | case3 b l r hl ihl ihr =>
    rw [printed, setRight_key, ihl, ihr]
    exact hl

theorem morris_thread {fuel : ℕ} {predecessor : Address} (hleft : mem.left a = some b)
    (hfind : findPredecessor mem a fuel b = some predecessor)
    (hright : mem.right predecessor = none) (out : List UInt8) :
    morris onThread onReturn (fuel + 1) mem (some a) out =
      morris onThread onReturn fuel (mem.setRight predecessor (some a)) (some b)
        (out ++ onThread (mem a).key) := by
  have hafter : (mem.setRight predecessor (some a) a).left = some b := by
    rw [← hleft, ← setRight_left (some a)]
    rfl
  unfold Memory.left at hleft
  unfold Memory.right at hright
  rw [morris, hleft]
  simp only [hfind, Option.bind_eq_bind, Option.bind_some, hright, hafter]

theorem morris_return {fuel : ℕ} {predecessor c : Address} (hleft : mem.left a = some b)
    (hfind : findPredecessor mem a fuel b = some predecessor)
    (hright : mem.right predecessor = some c) (out : List UInt8) :
    morris onThread onReturn (fuel + 1) mem (some a) out =
      morris onThread onReturn fuel (mem.setRight predecessor none)
        ((mem.setRight predecessor none) a).right (out ++ onReturn (mem a).key) := by
  unfold Memory.left at hleft
  unfold Memory.right at hright
  rw [morris, hleft]
  simp only [hfind, Option.bind_eq_bind, Option.bind_some, hright]

/-- The memory is the same again when the tree has been left. -/
theorem morris_walk (h : Threaded mem.left mem.right next t) (hn : (inorder t).Nodup) {k : ℕ}
    (hk : t.numNodes ≤ k) (out : List UInt8) :
    morris onThread onReturn (visits t + k) mem (topOr next t) out =
      morris onThread onReturn k mem next (out ++ printed onThread onReturn mem t) := by
  induction t generalizing mem next k out with
  | nil => simp [visits, topOr, printed]
  | node a l r ihl ihr =>
    obtain ⟨⟨hal, -⟩, hnl, hnr, -⟩ := nodup_node.mp hn
    have hleft : (mem a).left = top l := h.1
    have hright : (mem a).right = topOr next r := h.2.1
    rw [BinaryTree.numNodes] at hk
    cases l with
    | nil =>
      have hfuel : visits (.node a .nil r) + k = visits r + k + 1 := by
        rw [visits]
        omega
      rw [hfuel, topOr, morris, hleft]
      dsimp only [top]
      rw [hright, ihr h.2.2.2 hnr (by omega), printed, List.append_assoc]
    | node b l' r' =>
      have hlast := h.2.2.1.right_rightmost
      have hthread := h.2.2.1.update hnl (some a)
      rw [← setRight_left (some a), ← setRight_right (some a)] at hthread
      have hleft' : (mem.setRight (rightmost b r') (some a)).left a = some b := by
        rw [setRight_left]
        exact hleft
      have hlast' : (mem.setRight (rightmost b r') (some a)).right (rightmost b r') = some a := by
        rw [setRight_right, Function.update_self]
      have hfind : findPredecessor mem a (visits (.node b l' r') + (visits r + k + 1)) b =
          some (rightmost b r') :=
        findPredecessor_eq h.2.2.1 (.inl rfl) hal (by omega)
      have hback : findPredecessor (mem.setRight (rightmost b r') (some a)) a (visits r + k) b =
          some (rightmost b r') :=
        findPredecessor_eq hthread (.inr rfl) hal (by omega)
      have hwalk := ihl hthread hnl (k := visits r + k + 1) (by omega) (out ++ onThread (mem a).key)
      rw [topOr] at hwalk
      have hfuel : visits (.node a (.node b l' r') r) + k =
          visits (.node b l' r') + (visits r + k + 1) + 1 := by
        rw [visits_node]
        omega
      rw [hfuel, topOr, morris_thread hleft hfind hlast, hwalk, morris_return hleft' hback hlast',
        setRight_setRight hlast, setRight_key, printed_setRight, hright, ihr h.2.2.2 hnr (by omega),
        printed_node]
      simp only [List.append_assoc]

/-! ## The whole tree -/

theorem printed_inOrder (mem : Memory) (t : BinaryTree Address) :
    printed (fun _ => []) printKey mem t = (inorder t).flatMap fun a => printKey (mem a).key := by
  induction t with
  | nil => rfl
  | node a l r ihl ihr =>
    rw [inorder, List.flatMap_append, List.flatMap_cons, ← ihl, ← ihr]
    cases l with
    | nil => rfl
    | node b l' r' => rw [printed_node, List.nil_append]

theorem printed_preOrder (mem : Memory) (t : BinaryTree Address) :
    printed printKey (fun _ => []) mem t = (preorder t).flatMap fun a => printKey (mem a).key := by
  induction t with
  | nil => rfl
  | node a l r ihl ihr =>
    rw [preorder, List.flatMap_cons, List.flatMap_append, ← ihl, ← ihr]
    cases l with
    | nil => rfl
    | node b l' r' => rw [printed_node, List.nil_append]

/-- Three iterations for each node are more than enough. -/
theorem morris_tree (h : Children mem.left mem.right t) (hn : (inorder t).Nodup) {fuel : ℕ}
    (hfuel : 3 * t.numNodes < fuel) :
    morris onThread onReturn fuel mem (top t) [] = some (mem, printed onThread onReturn mem t) := by
  have hvisits := visits_le t
  obtain ⟨k, rfl⟩ : ∃ k, fuel = visits t + (k + 1) := ⟨fuel - visits t - 1, by omega⟩
  have hwalk : morris onThread onReturn (visits t + (k + 1)) mem (topOr none t) [] =
      morris onThread onReturn (k + 1) mem none ([] ++ printed onThread onReturn mem t) :=
    morris_walk (threaded_none.mpr h) hn (by omega) []
  rw [topOr_none] at hwalk
  rw [hwalk, morris, List.nil_append]

/-- The keys in order, and the memory as it was. -/
theorem morris_traversals (h : Children mem.left mem.right t) (hn : (inorder t).Nodup) {fuel : ℕ}
    (hfuel : 3 * t.numNodes < fuel) :
    morrisInOrder fuel mem (top t) =
        some (mem, (inorder t).flatMap fun a => printKey (mem a).key) ∧
      morrisPreOrder fuel mem (top t) =
        some (mem, (preorder t).flatMap fun a => printKey (mem a).key) := by
  constructor
  · rw [morrisInOrder, morris_tree h hn hfuel, printed_inOrder]
  · rw [morrisPreOrder, morris_tree h hn hfuel, printed_preOrder]

/-- The nodes 1, 2 and 3 under the root 2. -/
def threeNodes : Memory
  | 2 => ⟨2, some 1, some 3⟩
  | a => ⟨Int32.ofNat a, none, none⟩

theorem morris_traversals_three :
    morrisInOrder 10 threeNodes (some 2) = some (threeNodes, [49, 10, 50, 10, 51, 10]) ∧
      morrisPreOrder 10 threeNodes (some 2) = some (threeNodes, [50, 10, 49, 10, 51, 10]) :=
  morris_traversals (t := .node 2 (.node 1 .nil .nil) (.node 3 .nil .nil))
    (by simp [Children, top, Memory.left, Memory.right, threeNodes]) (by decide) (by decide)

end InterviewQuestions.MorrisTraversal

import InterviewQuestions.Library.Machine
import Mathlib.Logic.Function.Basic

/-! The binary search tree of `DS_Algos/BST/unbalanced/bst.c`. The memory holds a node at
every address, and the list of those that are allocated and not yet destroyed. A loop
makes at most one iteration more than there are such nodes, or runs out of fuel. -/
namespace InterviewQuestions.Bst

abbrev Address := ℕ

structure TreeNode where
  key : Int32
  parent : Option Address
  left : Option Address
  right : Option Address

structure Memory where
  node : Address → TreeNode
  live : List Address

namespace Memory

def key (mem : Memory) (a : Address) : Int32 := (mem.node a).key

def parent (mem : Memory) (a : Address) : Option Address := (mem.node a).parent

def left (mem : Memory) (a : Address) : Option Address := (mem.node a).left

def right (mem : Memory) (a : Address) : Option Address := (mem.node a).right

def write (mem : Memory) (a : Address) (n : TreeNode) : Memory :=
  { mem with node := Function.update mem.node a n }

def setParent (mem : Memory) (a : Address) (p : Option Address) : Memory :=
  mem.write a { mem.node a with parent := p }

def setLeft (mem : Memory) (a : Address) (p : Option Address) : Memory :=
  mem.write a { mem.node a with left := p }

def setRight (mem : Memory) (a : Address) (p : Option Address) : Memory :=
  mem.write a { mem.node a with right := p }

end Memory

/-- `block` is what `malloc` returns. -/
def newTreeNode (mem : Memory) (block : Option Address) (k : Int32)
    (left right parent : Option Address) : Memory × Option Address :=
  match block with
  | none => (mem, none)
  | some ret =>
      ({ mem.write ret ⟨k, parent, left, right⟩ with live := ret :: mem.live }, some ret)

def destroyTreeNode (mem : Memory) (n : Address) : Memory :=
  { mem with live := mem.live.filter (· ≠ n) }

def treeMinimum (mem : Memory) (root : Option Address) : Option (Option Address) :=
  match root with
  | none => some none
  | some root => (loop (mem.live.length + 1) root).map some
where
  loop : ℕ → Address → Option Address
    | 0, _ => none
    | fuel + 1, root =>
        match mem.left root with
        | some next => loop fuel next
        | none => some root

def treeMaximum (mem : Memory) (root : Option Address) : Option (Option Address) :=
  match root with
  | none => some none
  | some root => (loop (mem.live.length + 1) root).map some
where
  loop : ℕ → Address → Option Address
    | 0, _ => none
    | fuel + 1, root =>
        match mem.right root with
        | some next => loop fuel next
        | none => some root

/-- The memory and the pointer that `tree_insert` returns. -/
def treeInsert (mem : Memory) (root : Option Address) (k : Int32) (block : Option Address) :
    Option (Memory × Option Address) :=
  (loop (mem.live.length + 1) none root).map fun prev =>
    match prev with
    | none => newTreeNode mem block k none none none
    | some prev =>
        match newTreeNode mem block k none none (some prev) with
        | (mem, none) => (mem, none)
        | (mem, some toInsert) =>
            if k < mem.key prev then (mem.setLeft prev toInsert, root)
            else (mem.setRight prev toInsert, root)
where
  /-- The search for the node to insert under, from `prev` and `curr`. -/
  loop : ℕ → Option Address → Option Address → Option (Option Address)
    | 0, _, _ => none
    | _ + 1, prev, none => some prev
    | fuel + 1, _, some curr =>
        loop fuel (some curr) (if k < mem.key curr then mem.left curr else mem.right curr)

def treeFind (mem : Memory) (root : Option Address) (k : Int32) : Option (Option Address) :=
  loop (mem.live.length + 1) root
where
  loop : ℕ → Option Address → Option (Option Address)
    | 0, _ => none
    | _ + 1, none => some none
    | fuel + 1, some root =>
        if mem.key root ≠ k then
          loop fuel (if k < mem.key root then mem.left root else mem.right root)
        else some (some root)

def transplant (mem : Memory) (u : Address) (v : Option Address) : Memory :=
  let mem :=
    match mem.parent u with
    | none => mem
    | some p => if some u = mem.left p then mem.setLeft p v else mem.setRight p v
  match v with
  | none => mem
  | some v => mem.setParent v (mem.parent u)

/-- `p->parent = value`, which the code does for no NULL pointer. -/
def setParentOf (mem : Memory) (p : Option Address) (value : Option Address) : Memory :=
  match p with
  | none => mem
  | some p => mem.setParent p value

/-- The branch of `tree_delete_internal` for a node with two children. -/
def replaceBySuccessor (mem : Memory) (toDel successor : Address) : Memory :=
  if some successor = mem.right toDel then
    let mem := mem.setLeft successor (mem.left toDel)
    transplant mem toDel (some successor)
  else
    let mem := transplant mem successor (mem.right successor)
    let mem := mem.setRight successor (mem.right toDel)
    let mem := mem.setLeft successor (mem.left toDel)
    let mem := setParentOf mem (mem.right successor) (some successor)
    let mem := setParentOf mem (mem.left successor) (some successor)
    transplant mem toDel (some successor)

def treeDeleteInternal (mem : Memory) (root : Option Address) (toDel : Address) :
    Option (Memory × Option Address) :=
  if mem.left toDel = none then
    let mem := transplant mem toDel (mem.right toDel)
    let newroot := if mem.parent toDel = none then mem.right toDel else root
    some (destroyTreeNode mem toDel, newroot)
  else if mem.right toDel = none then
    let mem := transplant mem toDel (mem.left toDel)
    let newroot := if mem.parent toDel = none then mem.left toDel else root
    some (destroyTreeNode mem toDel, newroot)
  else
    match treeMinimum mem (mem.right toDel) with
    | some (some successor) =>
        let mem := replaceBySuccessor mem toDel successor
        let newroot := if mem.parent successor = none then some successor else root
        some (destroyTreeNode mem toDel, newroot)
    | _ => none

def treeDelete (mem : Memory) (root : Option Address) (k : Int32) :
    Option (Memory × Option Address) :=
  match treeFind mem root k with
  | none => none
  | some none => some (mem, root)
  | some (some toDelete) => treeDeleteInternal mem root toDelete

def treeSuccessor (mem : Memory) (root : Option Address) : Option (Option Address) :=
  match root with
  | none => some none
  | some root =>
      if mem.right root ≠ none then treeMinimum mem (mem.right root)
      else loop (mem.live.length + 1) root (mem.parent root)
where
  loop : ℕ → Address → Option Address → Option (Option Address)
    | 0, _, _ => none
    | _ + 1, _, none => some none
    | fuel + 1, root, some p =>
        if some root ≠ mem.left p then loop fuel p (mem.parent p) else some (some p)

def treePredecessor (mem : Memory) (root : Option Address) : Option (Option Address) :=
  match root with
  | none => some none
  | some root =>
      if mem.left root ≠ none then treeMaximum mem (mem.left root)
      else loop (mem.live.length + 1) root (mem.parent root)
where
  loop : ℕ → Address → Option Address → Option (Option Address)
    | 0, _, _ => none
    | _ + 1, _, none => some none
    | fuel + 1, root, some p =>
        if some root ≠ mem.right p then loop fuel p (mem.parent p) else some (some p)

/-- A client's memory and the root it keeps. -/
structure State where
  mem : Memory
  root : Option Address

/-- The empty tree, in a memory of any contents. -/
def State.empty (node : Address → TreeNode) : State := ⟨⟨node, []⟩, none⟩

/-- Calls, an insertion with the address that its allocation returns. -/
inductive Op where
  | insert (k : Int32) (block : Address)
  | delete (k : Int32)

def State.call (s : State) : Op → Option State
  | .insert k block => (treeInsert s.mem s.root k (some block)).map fun ret => ⟨ret.1, ret.2⟩
  | .delete k => (treeDelete s.mem s.root k).map fun ret => ⟨ret.1, ret.2⟩

/-- The states that calls lead through; none from a call that does not return. -/
def step (s : Option State) (op : Op) : Option State × Unit := (s.bind (·.call op), ())

end InterviewQuestions.Bst

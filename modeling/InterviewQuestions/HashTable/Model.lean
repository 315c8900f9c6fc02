import InterviewQuestions.Library.DoublyLinked
import InterviewQuestions.Library.Machine
import Mathlib.Data.Int.Notation
import Mathlib.Data.List.Nodup
import Mathlib.Logic.Function.Basic
import Mathlib.Tactic.Common

/-! The hash table of `DS_Algos/hash_table/impl.c`. The memory holds a node at every address,
and the list of the blocks that are allocated and not yet freed. A loop makes at most one
iteration more than there are such blocks, or runs out of fuel. -/
namespace InterviewQuestions.HashTable

abbrev Key := Int32

abbrev Item := Int32

/-- `HASH_TABLE_SZ` -/
abbrev hashTableSz : ℕ := 941

/-- A node is one of the array in the table, or a block from `malloc`. -/
inductive Address where
  | slot (i : Fin hashTableSz)
  | block (a : ℕ)
deriving DecidableEq

structure HtNode where
  value : Item
  key : Key
  next : Address
  prev : Address

structure Memory where
  node : Address → HtNode
  live : List ℕ

namespace Memory

def value (mem : Memory) (a : Address) : Item := (mem.node a).value

def key (mem : Memory) (a : Address) : Key := (mem.node a).key

def next (mem : Memory) (a : Address) : Address := (mem.node a).next

def prev (mem : Memory) (a : Address) : Address := (mem.node a).prev

def write (mem : Memory) (a : Address) (n : HtNode) : Memory :=
  { mem with node := Function.update mem.node a n }

def setNext (mem : Memory) (a : Address) (p : Address) : Memory :=
  mem.write a { mem.node a with next := p }

def setPrev (mem : Memory) (a : Address) (p : Address) : Memory :=
  mem.write a { mem.node a with prev := p }

end Memory

/-- `block` is what `malloc` returns. -/
def newNode (mem : Memory) (block : Option ℕ) (v : Item) (k : Key) : Memory × Option Address :=
  match block with
  | none => (mem, none)
  | some b =>
      ({ mem.write (.block b) ⟨v, k, .block b, .block b⟩ with live := b :: mem.live },
        some (.block b))

/-- No field changes, and to free a node of the table's array changes nothing at all. -/
def freeNode (mem : Memory) : Address → Memory
  | .slot _ => mem
  | .block b => { mem with live := mem.live.filter (· ≠ b) }

def insertAfter (mem : Memory) (new head : Address) : Memory :=
  let mem := mem.setNext new (mem.next head)
  let mem := mem.setPrev new head
  let mem := mem.setPrev (mem.next head) new
  mem.setNext head new

def deleteNode (mem : Memory) (node : Address) : Memory :=
  let mem := mem.setNext (mem.prev node) (mem.next node)
  let mem := mem.setPrev (mem.next node) (mem.prev node)
  freeNode mem node

/-- An access to a node in `destroy_list`. -/
inductive Event where
  | read (a : Address)
  | free (a : Address)
deriving DecidableEq

def destroyList (mem : Memory) (head : Address) : Option (Memory × List Event) :=
  (loop (mem.live.length + 1) mem (mem.next head)).map fun ret =>
    ((ret.1.setPrev head head).setNext head head, .read head :: ret.2)
where
  loop : ℕ → Memory → Address → Option (Memory × List Event)
    | 0, _, _ => none
    | fuel + 1, mem, cursor =>
        if cursor ≠ head then
          let nextCursor := mem.next cursor
          (loop fuel (freeNode mem nextCursor) nextCursor).map fun ret =>
            (ret.1, .read cursor :: .free nextCursor :: ret.2)
        else some (mem, [])

/-- `((unsigned) k) % 941` -/
def hashKey (k : Key) : Fin hashTableSz :=
  ⟨k.toUInt32.toNat % 941, Nat.mod_lt _ (by decide)⟩

/-- An empty table in a memory with any contents. -/
def newTable (node : Address → HtNode) : Memory where
  node
    | .slot i => { node (.slot i) with next := .slot i, prev := .slot i }
    | .block a => node (.block a)
  live := []

def freeTable (mem : Memory) : Option (Memory × List Event) :=
  loop (List.finRange hashTableSz) mem
where
  loop : List (Fin hashTableSz) → Memory → Option (Memory × List Event)
    | [], mem => some (mem, [])
    | slot :: slots, mem =>
        (destroyList mem (.slot slot)).bind fun ret =>
          (loop slots ret.1).map fun rest => (rest.1, ret.2 ++ rest.2)

/-- The memory and the value returned. -/
def insert (mem : Memory) (k : Key) (value : Item) (block : Option ℕ) : Memory × Bool :=
  match newNode mem block value k with
  | (mem, none) => (mem, false)
  | (mem, some node) => (insertAfter mem node (.slot (hashKey k)), true)

def findInternal (mem : Memory) (head : Address) (k : Key) : Option Address :=
  loop (mem.live.length + 1) (mem.next head)
where
  loop : ℕ → Address → Option Address
    | 0, _ => none
    | fuel + 1, cursor =>
        if cursor ≠ head ∧ mem.key cursor ≠ k then loop fuel (mem.next cursor) else some cursor

/-- What `find` writes to `out`, if it returns 1. -/
def find (mem : Memory) (k : Key) : Option (Option Item) :=
  let head := Address.slot (hashKey k)
  (findInternal mem head k).map fun element =>
    if element = head then none else some (mem.value element)

def delete (mem : Memory) (k : Key) : Option Memory :=
  let head := Address.slot (hashKey k)
  (findInternal mem head k).map fun element =>
    if element ≠ head then deleteNode mem element else mem

inductive Op where
  | insert (k : Key) (value : Item) (block : Option ℕ)
  | find (k : Key)
  | delete (k : Key)

inductive Output where
  | inserted (ok : Bool)
  | found (out : Option Item)
  | deleted
deriving DecidableEq

def Memory.call (mem : Memory) : Op → Option (Memory × Output)
  | .insert k value block =>
      let (mem, ok) := insert mem k value block
      some (mem, .inserted ok)
  | .find k => (find mem k).map fun out => (mem, .found out)
  | .delete k => (delete mem k).map fun mem => (mem, .deleted)

/-- `none` once a loop has not ended. -/
def step : Option Memory → Op → Option Memory × Option Output
  | none, _ => (none, none)
  | some mem, op =>
      match mem.call op with
      | none => (none, none)
      | some (mem, out) => (some mem, some out)

/-! The slots of the table as rings of blocks: what the operations read in them and make of
them. -/

open Library

variable {mem : Memory} {head new : Address} {k : Key}

/-! ## Fields of the memory -/

section Fields

variable (mem : Memory) (a p : Address) (n : HtNode)

@[simp] theorem next_write : (mem.write a n).next = Function.update mem.next a n.next :=
  Function.comp_update HtNode.next mem.node a n

@[simp] theorem prev_write : (mem.write a n).prev = Function.update mem.prev a n.prev :=
  Function.comp_update HtNode.prev mem.node a n

@[simp] theorem key_write : (mem.write a n).key = Function.update mem.key a n.key :=
  Function.comp_update HtNode.key mem.node a n

@[simp] theorem value_write : (mem.write a n).value = Function.update mem.value a n.value :=
  Function.comp_update HtNode.value mem.node a n

@[simp] theorem next_setNext : (mem.setNext a p).next = Function.update mem.next a p :=
  next_write mem a _

@[simp] theorem next_setPrev : (mem.setPrev a p).next = mem.next :=
  (next_write mem a _).trans (Function.update_eq_self a mem.next)

@[simp] theorem prev_setNext : (mem.setNext a p).prev = mem.prev :=
  (prev_write mem a _).trans (Function.update_eq_self a mem.prev)

@[simp] theorem prev_setPrev : (mem.setPrev a p).prev = Function.update mem.prev a p :=
  prev_write mem a _

@[simp] theorem key_setNext : (mem.setNext a p).key = mem.key :=
  (key_write mem a _).trans (Function.update_eq_self a mem.key)

@[simp] theorem key_setPrev : (mem.setPrev a p).key = mem.key :=
  (key_write mem a _).trans (Function.update_eq_self a mem.key)

@[simp] theorem value_setNext : (mem.setNext a p).value = mem.value :=
  (value_write mem a _).trans (Function.update_eq_self a mem.value)

@[simp] theorem value_setPrev : (mem.setPrev a p).value = mem.value :=
  (value_write mem a _).trans (Function.update_eq_self a mem.value)

end Fields

/-- What `insert_after` does to the fields. -/
structure Inserted (mem mem' : Memory) (head new : Address) (k : Key) (v : Item) : Prop where
  next : mem'.next = Function.update (Function.update mem.next new (mem.next head)) head new
  prev : mem'.prev = Function.update (Function.update mem.prev new head) (mem.next head) new
  key : mem'.key = Function.update mem.key new k
  value : mem'.value = Function.update mem.value new v

theorem insertAfter_fields (mem : Memory) (hne : head ≠ new) (k : Key) (v : Item)
    (blocks : List ℕ) :
    Inserted mem (insertAfter { mem.write new ⟨v, k, new, new⟩ with live := blocks } new head)
      head new k v := by
  let mem₀ : Memory := { mem.write new ⟨v, k, new, new⟩ with live := blocks }
  have hnext₀ : mem₀.next = Function.update mem.next new new := next_write mem new ⟨v, k, new, new⟩
  have hprev₀ : mem₀.prev = Function.update mem.prev new new := prev_write mem new ⟨v, k, new, new⟩
  have hkey₀ : mem₀.key = Function.update mem.key new k := key_write mem new ⟨v, k, new, new⟩
  have hvalue₀ : mem₀.value = Function.update mem.value new v :=
    value_write mem new ⟨v, k, new, new⟩
  have hhead : mem₀.next head = mem.next head := by rw [hnext₀, Function.update_of_ne hne]
  let mem₂ := (mem₀.setNext new (mem₀.next head)).setPrev new head
  have hinsert : insertAfter mem₀ new head =
      (mem₂.setPrev (mem₂.next head) new).setNext head new := rfl
  have hhead₂ : mem₂.next head = mem.next head := by
    simp only [mem₂, next_setPrev, next_setNext, Function.update_of_ne hne, hhead]
  rw [hinsert, hhead₂]
  constructor
  · simp [mem₂, hhead, hnext₀]
  · simp [mem₂, hprev₀]
  · simp [mem₂, hkey₀]
  · simp [mem₂, hvalue₀]

/-- What `delete_node` does to the fields. -/
structure Deleted (mem mem' : Memory) (node : Address) : Prop where
  next : mem'.next = Function.update mem.next (mem.prev node) (mem.next node)
  prev : mem'.prev = Function.update mem.prev (mem.next node) (mem.prev node)
  key : mem'.key = mem.key
  value : mem'.value = mem.value

@[simp] theorem next_freeNode (mem : Memory) (a : Address) : (freeNode mem a).next = mem.next := by
  cases a <;> rfl

@[simp] theorem prev_freeNode (mem : Memory) (a : Address) : (freeNode mem a).prev = mem.prev := by
  cases a <;> rfl

@[simp] theorem key_freeNode (mem : Memory) (a : Address) : (freeNode mem a).key = mem.key := by
  cases a <;> rfl

@[simp] theorem value_freeNode (mem : Memory) (a : Address) :
    (freeNode mem a).value = mem.value := by
  cases a <;> rfl

theorem deleteNode_fields (mem : Memory) (node : Address) :
    Deleted mem (deleteNode mem node) node := by
  let mem₁ := mem.setNext (mem.prev node) (mem.next node)
  have hnext : mem₁.next node = mem.next node := by
    simp only [mem₁, next_setNext]
    by_cases hself : node = mem.prev node
    · rw [← hself, Function.update_self]
    · rw [Function.update_of_ne hself]
  have hprev : mem₁.prev node = mem.prev node := by simp [mem₁]
  have hdelete : deleteNode mem node =
      freeNode (mem₁.setPrev (mem.next node) (mem.prev node)) node := by
    rw [← hnext, ← hprev]
    rfl
  rw [hdelete]
  constructor <;> simp [mem₁]

/-! ## Searching a ring -/

/-- The loop finds the first node with the key, or ends at the head. -/
theorem loop_spec {rest : List Address} {fuel : ℕ}
    (hlinks : List.IsChain (Link mem.next mem.prev) (rest ++ [head])) (hhead : head ∉ rest)
    (hfuel : rest.length < fuel) {cursor : Address} {back : List Address}
    (hcursor : rest ++ [head] = cursor :: back) :
    findInternal.loop mem head k fuel cursor =
      some ((rest.find? fun a => mem.key a = k).getD head) := by
  induction rest generalizing fuel cursor back with
  | nil =>
    cases hcursor
    obtain ⟨fuel, rfl⟩ : ∃ f, fuel = f + 1 := ⟨fuel - 1, by omega⟩
    rw [findInternal.loop, if_neg (fun h => h.1 rfl)]
    rfl
  | cons a rest ih =>
    cases hcursor
    obtain ⟨fuel, rfl⟩ : ∃ f, fuel = f + 1 := ⟨fuel - 1, by omega⟩
    have hne : a ≠ head := fun heq => hhead (by rw [heq]; exact List.mem_cons_self)
    obtain ⟨⟨tail, htail⟩, hrest⟩ := DoublyLinked.links_step hlinks
    rw [findInternal.loop]
    by_cases hkey : mem.key a = k
    · rw [if_neg (fun h => h.2 hkey), List.find?_cons_of_pos (by simpa using hkey)]
      rfl
    · rw [if_pos ⟨hne, hkey⟩, List.find?_cons_of_neg (by simpa using hkey)]
      rw [List.length_cons] at hfuel
      exact ih hrest (fun hmem => hhead (List.mem_cons_of_mem a hmem)) (by omega) htail

theorem findInternal_eq {nodes : List Address}
    (h : DoublyLinked mem.next mem.prev head nodes) (hlength : nodes.length ≤ mem.live.length) :
    findInternal mem head k = some ((nodes.find? fun a => mem.key a = k).getD head) := by
  obtain ⟨back, hback⟩ := h.next_head
  exact loop_spec h.links.tail (List.nodup_cons.mp h.nodup).1 (by omega) hback

end InterviewQuestions.HashTable

import Mathlib.Algebra.GroupWithZero.Nat
import Mathlib.Logic.Function.Basic

/-! The allocator of `knowledge_based/linux_internals/malloc/malloc.c`. Addresses
count bytes; the memory holds a header at every address, of which the allocator uses
those that start a block. `lst` is the address of the static `free_lst`. -/
namespace InterviewQuestions.Malloc

abbrev Address := ℕ

def ALLOC_MIN_UNITS : ℕ := 1024

/-- `sizeof(Header)`, the bytes of a unit. -/
def sizeofHeader : ℕ := 24

structure Header where
  next : Address
  prev : Address
  size : ℕ

abbrev Memory := Address → Header

def setNext (mem : Memory) (a value : Address) : Memory :=
  Function.update mem a { mem a with next := value }

def setPrev (mem : Memory) (a value : Address) : Memory :=
  Function.update mem a { mem a with prev := value }

def setSize (mem : Memory) (a : Address) (value : ℕ) : Memory :=
  Function.update mem a { mem a with size := value }

/-- The units of a block for `nbytes` bytes, computed in `size_t`. -/
def unitsFor (nbytes : ℕ) : ℕ := (nbytes + sizeofHeader - 1) % 2 ^ 64 / sizeofHeader + 1

/-! ## The free list -/

/-- The loops over the free list: go on from `block` while `skip` says so, for at most `fuel`
steps. -/
def scan (lst : Address) (mem : Memory) (skip : Address → Bool) : ℕ → Address → Option Address
  | 0, _ => none
  | fuel + 1, block =>
      if block ≠ lst ∧ skip block then scan lst mem skip fuel (mem block).next else some block

/-- A block that fits exactly leaves the list. -/
def unlink (mem : Memory) (block : Address) : Memory :=
  let mem := setNext mem (mem block).prev (mem block).next
  setPrev mem (mem block).next (mem block).prev

/-- A larger block hands out its first units; the rest takes its place in the list. -/
def splitBlock (mem : Memory) (block : Address) (units : ℕ) : Memory :=
  let newBlock := block + sizeofHeader * units
  let mem := setSize mem newBlock ((mem block).size - units)
  let mem := setPrev mem newBlock (mem block).prev
  let mem := setNext mem newBlock (mem block).next
  let mem := setNext mem (mem block).prev newBlock
  setPrev mem (mem block).next newBlock

/-- The part of `free` that links the block in before `right`. -/
def insertFree (mem : Memory) (toFree right : Address) : Memory :=
  let mem := setNext mem toFree right
  let mem := setPrev mem toFree (mem right).prev
  let mem := setPrev mem right toFree
  setNext mem (mem toFree).prev toFree

def coalesceRight (mem : Memory) (toFree right : Address) : Memory :=
  if toFree + sizeofHeader * (mem toFree).size = right then
    let mem := setSize mem toFree ((mem toFree).size + (mem right).size)
    let mem := setPrev mem (mem right).next toFree
    setNext mem toFree (mem right).next
  else mem

def coalesceLeft (mem : Memory) (toFree : Address) : Memory :=
  if (mem toFree).prev + sizeofHeader * (mem (mem toFree).prev).size = toFree then
    let mem := setSize mem (mem toFree).prev ((mem (mem toFree).prev).size + (mem toFree).size)
    let mem := setNext mem (mem toFree).prev (mem toFree).next
    setPrev mem (mem toFree).next (mem toFree).prev
  else mem

def free (lst : Address) (fuel : ℕ) (mem : Memory) (ptr : Address) : Option Memory :=
  let toFree := ptr - sizeofHeader
  (scan lst mem (· < toFree) fuel (mem lst).next).map fun right =>
    coalesceLeft (coalesceRight (insertFree mem toFree right) toFree right) toFree

/-! ## The heap -/

/-- The memory and `sbrk`. A coming call of `sbrk` fails (`none`) or leaves a gap above
`brk`, the end of the memory obtained so far; `obtained` lists that memory with its bytes. -/
structure Heap where
  mem : Memory
  brk : Address
  sbrks : ℕ → Option ℕ
  obtained : List (Address × ℕ)

def Heap.sbrk (h : Heap) (increment : ℕ) : Option Address × Heap :=
  let rest := { h with sbrks := fun i => h.sbrks (i + 1) }
  match h.sbrks 0 with
  | none => (none, rest)
  | some gap => (some (h.brk + gap), { rest with
      brk := h.brk + gap + increment
      obtained := (h.brk + gap, increment) :: h.obtained })

/-- The bytes that `alloc_mem` asks for: at least the minimum, multiplied in `size_t`. -/
def bytesFor (units : ℕ) : ℕ :=
  (if units < ALLOC_MIN_UNITS then ALLOC_MIN_UNITS else units) * sizeofHeader % 2 ^ 64

/-- The new block gets the size that `malloc` asked for. -/
def allocMem (lst : Address) (fuel : ℕ) (h : Heap) (units : ℕ) : Option (Option Address × Heap) :=
  match h.sbrk (bytesFor units) with
  | (none, h) => some (none, h)
  | (some allocated, h) =>
      (free lst fuel (setSize h.mem allocated units) (allocated + sizeofHeader)).map fun mem =>
        (some allocated, { h with mem := mem })

/-- `none` when the fuel is used up; a result `none` is `NULL`. -/
def malloc (lst : Address) : ℕ → ℕ → Heap → Option (Option Address × Heap)
  | 0, _, _ => none
  | fuel + 1, nbytes, h =>
      let units := unitsFor nbytes
      (scan lst h.mem (fun block => (h.mem block).size < units) fuel (h.mem lst).next).bind
        fun block =>
          if block ≠ lst then
            if (h.mem block).size = units then
              some (some (block + sizeofHeader), { h with mem := unlink h.mem block })
            else
              some (some (block + sizeofHeader), { h with mem := splitBlock h.mem block units })
          else
            (allocMem lst fuel h units).bind fun
              | (none, h) => some (none, h)
              | (some _, h) => malloc lst fuel nbytes h

/-- The units that such a call passes to `alloc_mem`, call by call. -/
def allocRequests (lst : Address) : ℕ → ℕ → Heap → List ℕ
  | 0, _, _ => []
  | fuel + 1, nbytes, h =>
      let units := unitsFor nbytes
      match scan lst h.mem (fun block => (h.mem block).size < units) fuel (h.mem lst).next with
      | none => []
      | some block =>
          if block ≠ lst then []
          else
            units :: match allocMem lst fuel h units with
              | some (some _, h) => allocRequests lst fuel nbytes h
              | _ => []

/-! ## Runs -/

/-- The heap with the blocks handed out and not yet freed, and the bytes they are for. -/
structure State where
  heap : Heap
  live : List (Address × ℕ)

/-- No memory obtained yet, and an empty free list. -/
def State.start (lst : Address) (mem : Memory) (brk : Address) (sbrks : ℕ → Option ℕ) : State where
  heap := ⟨Function.update mem lst ⟨lst, lst, 0⟩, brk, sbrks, []⟩
  live := []

/-- A heap above `free_lst` at address 0, where `sbrk` leaves no gaps. -/
def contiguous : State := State.start 0 (fun _ => ⟨0, 0, 0⟩) 24 fun _ => some 0

inductive Op where
  | malloc (nbytes : ℕ)
  | free (ptr : Address)
deriving DecidableEq

/-- One call, with what it returns; the state is `none` after a call that ran out of fuel. -/
def step (lst : Address) (fuel : ℕ) : Option State → Op → Option State × Option (Option Address)
  | none, _ => (none, none)
  | some s, .malloc nbytes =>
      match malloc lst fuel nbytes s.heap with
      | none => (none, none)
      | some (none, heap) => (some { s with heap := heap }, some none)
      | some (some ptr, heap) =>
          (some ⟨heap, (ptr - sizeofHeader, nbytes) :: s.live⟩, some (some ptr))
  | some s, .free ptr =>
      match free lst fuel s.heap.mem ptr with
      | none => (none, none)
      | some mem =>
          (some ⟨{ s.heap with mem := mem }, s.live.filter fun b => b.1 + sizeofHeader ≠ ptr⟩,
            some none)

/-- A condition on a call, in the state before it. -/
def InState (p : State → Op → Prop) (s : Option State) (op : Op) : Prop := ∀ t ∈ s, p t op

instance (p : State → Op → Prop) [∀ t op, Decidable (p t op)] (s : Option State) (op : Op) :
    Decidable (InState p s op) :=
  inferInstanceAs (Decidable (∀ t ∈ s, p t op))

/-- `free` is given a pointer that `malloc` returned and that was not freed since. -/
def ValidFree (s : State) : Op → Prop
  | .malloc _ => True
  | .free ptr => ∃ b ∈ s.live, b.1 + sizeofHeader = ptr

instance (s : State) : ∀ op, Decidable (ValidFree s op)
  | .malloc _ => isTrue trivial
  | .free ptr => inferInstanceAs (Decidable (∃ b ∈ s.live, b.1 + sizeofHeader = ptr))

end InterviewQuestions.Malloc

import InterviewQuestions.Library.ArrayHeap
import InterviewQuestions.Library.Machine
import Mathlib.Algebra.GroupWithZero.Nat
import Mathlib.Logic.Function.Basic

/-! The set-associative cache of `misc/lru_cache/solution.cpp`. Each line is an
array min-heap of timestamped entries; loops carry the number of iterations
they can still make as fuel. -/
namespace InterviewQuestions.LruCache

open Library

structure CacheLineEntry (Key Value : Type*) where
  timestamp : UInt64
  key : Key
  val : Value
deriving DecidableEq, Repr

variable {Key Value : Type*}

/-- `operator<` of two heap slots. The loops only compare slots inside the vector. -/
def entryLess (minHeap : Array (CacheLineEntry Key Value)) (i j : ℕ) : Bool :=
  match minHeap[i]?, minHeap[j]? with
  | some a, some b => a.timestamp < b.timestamp
  | _, _ => false

def siftUp (minHeap : Array (CacheLineEntry Key Value)) (curr : ℕ) :
    Array (CacheLineEntry Key Value) :=
  loop curr minHeap curr
where
  loop : ℕ → Array (CacheLineEntry Key Value) → ℕ → Array (CacheLineEntry Key Value)
    | 0, minHeap, _ => minHeap
    | fuel + 1, minHeap, curr =>
        let parent := (curr + 1) / 2 - 1
        if curr ≠ 0 ∧ entryLess minHeap curr parent then
          loop fuel (minHeap.swapIfInBounds curr parent) parent
        else minHeap

/-- The two tests that `sift_down` makes before its loop and again in its body. -/
def smallestOf (minHeap : Array (CacheLineEntry Key Value)) (curr : ℕ) : ℕ :=
  let left := curr * 2 + 1
  let right := left + 1
  let smallest := if left < minHeap.size ∧ entryLess minHeap left curr then left else curr
  if right < minHeap.size ∧ entryLess minHeap right smallest then right else smallest

def siftDown (minHeap : Array (CacheLineEntry Key Value)) (curr : ℕ) :
    Array (CacheLineEntry Key Value) :=
  loop minHeap.size minHeap curr
where
  loop : ℕ → Array (CacheLineEntry Key Value) → ℕ → Array (CacheLineEntry Key Value)
    | 0, minHeap, _ => minHeap
    | fuel + 1, minHeap, curr =>
        let smallest := smallestOf minHeap curr
        if smallest ≠ curr then loop fuel (minHeap.swapIfInBounds curr smallest) smallest
        else minHeap

def extractMin (minHeap : Array (CacheLineEntry Key Value)) : Array (CacheLineEntry Key Value) :=
  siftDown (minHeap.swapIfInBounds 0 (minHeap.size - 1)).pop 0

/-- The private `insert` of one entry. -/
def insertEntry (minHeap : Array (CacheLineEntry Key Value)) (elem : CacheLineEntry Key Value) :
    Array (CacheLineEntry Key Value) :=
  siftUp (minHeap.push elem) minHeap.size

def increaseKey (minHeap : Array (CacheLineEntry Key Value)) (idx : ℕ) (newKey : UInt64) :
    Array (CacheLineEntry Key Value) :=
  match minHeap[idx]? with
  | none => minHeap
  | some entry => siftDown (minHeap.setIfInBounds idx { entry with timestamp := newKey }) idx

structure CacheLine (Key Value : Type*) where
  minHeap : Array (CacheLineEntry Key Value)
  assoc : ℕ

namespace CacheLine

/-- The position of the iterator `find_by_key` returns; the size of the vector for `end()`. -/
def findByKey [DecidableEq Key] (line : CacheLine Key Value) (k : Key) : ℕ :=
  line.minHeap.toList.findIdx fun entry => entry.key = k

def insert (line : CacheLine Key Value) (currTime : UInt64) (k : Key) (val : Value) :
    CacheLine Key Value :=
  let minHeap := if line.minHeap.size = line.assoc then extractMin line.minHeap else line.minHeap
  { line with minHeap := insertEntry minHeap ⟨currTime, k, val⟩ }

def get [DecidableEq Key] (line : CacheLine Key Value) (currTime : UInt64) (k : Key) :
    CacheLine Key Value × Option Value :=
  let idx := line.findByKey k
  match line.minHeap[idx]? with
  | none => (line, none)
  | some entry => ({ line with minHeap := increaseKey line.minHeap idx currTime }, some entry.val)

def update [DecidableEq Key] (line : CacheLine Key Value) (currTime : UInt64) (k : Key)
    (val : Value) : CacheLine Key Value :=
  let idx := line.findByKey k
  match line.minHeap[idx]? with
  | none => line
  | some entry =>
      let minHeap := line.minHeap.setIfInBounds idx { entry with val := val }
      { line with minHeap := increaseKey minHeap idx currTime }

end CacheLine

/-- The unsigned value a key takes in `k%lines_count`. -/
class CacheKey (Key : Type*) where
  toSize : Key → ℕ

/-- `uintptr_t`, the key type of the driver. -/
instance : CacheKey UInt64 := ⟨UInt64.toNat⟩

/-- A cache with `linesCount` lines. The operations divide by `linesCount`. -/
structure LRUCache (Key Value : Type*) (linesCount : ℕ) where
  lines : Fin linesCount → CacheLine Key Value
  timestamp : UInt64

namespace LRUCache

def create (blocks associativity : ℕ) : LRUCache Key Value (blocks / associativity) where
  lines := fun _ => ⟨#[], associativity⟩
  timestamp := 0

variable {linesCount : ℕ} [NeZero linesCount] [CacheKey Key]

/-- `k%lines_count` -/
def lineIndex (linesCount : ℕ) [NeZero linesCount] (k : Key) : Fin linesCount :=
  Fin.ofNat linesCount (CacheKey.toSize k)

def insert (cache : LRUCache Key Value linesCount) (k : Key) (val : Value) :
    LRUCache Key Value linesCount :=
  let i := lineIndex linesCount k
  { lines := Function.update cache.lines i ((cache.lines i).insert cache.timestamp k val)
    timestamp := cache.timestamp + 1 }

variable [DecidableEq Key]

def get (cache : LRUCache Key Value linesCount) (k : Key) :
    LRUCache Key Value linesCount × Option Value :=
  let i := lineIndex linesCount k
  let ret := (cache.lines i).get cache.timestamp k
  ({ lines := Function.update cache.lines i ret.1
     timestamp := if ret.2.isSome then cache.timestamp + 1 else cache.timestamp }, ret.2)

def update (cache : LRUCache Key Value linesCount) (k : Key) (val : Value) :
    LRUCache Key Value linesCount :=
  let i := lineIndex linesCount k
  { lines := Function.update cache.lines i ((cache.lines i).update cache.timestamp k val)
    timestamp := cache.timestamp + 1 }

end LRUCache

inductive Op (Key Value : Type*) where
  | insert (k : Key) (val : Value)
  | get (k : Key)
  | update (k : Key) (val : Value)

/-- One command of a client; only a `get` that hits reports a value. -/
def LRUCache.step {linesCount : ℕ} [NeZero linesCount] [CacheKey Key] [DecidableEq Key]
    (cache : LRUCache Key Value linesCount) : Op Key Value →
      LRUCache Key Value linesCount × Option Value
  | .insert k val => (cache.insert k val, none)
  | .get k => cache.get k
  | .update k val => (cache.update k val, none)

end InterviewQuestions.LruCache

/-! A cache line is a heap in an array, ordered by the age of its entries: what the
sifts do to it they do to any such heap. -/
namespace InterviewQuestions.LruCache

open Library Library.HeapOrder

variable {Key Value : Type*} {h : Array (CacheLineEntry Key Value)} {i j curr : ℕ}

/-- The key of a heap slot in the heap order. -/
def stampAt (h : Array (CacheLineEntry Key Value)) (i : ℕ) : ℕ :=
  match h[i]? with
  | some entry => entry.timestamp.toNat
  | none => 0

/-- The key of an entry in the heap order. -/
def age (entry : CacheLineEntry Key Value) : ℕ := entry.timestamp.toNat

theorem stampAt_eq (h : Array (CacheLineEntry Key Value)) :
    stampAt h = ArrayHeap.keyAt age h := by
  funext i
  unfold stampAt ArrayHeap.keyAt
  cases h[i]? with
  | none => rfl
  | some entry => rfl

theorem stampAt_of_lt (hi : i < h.size) : stampAt h i = h[i].timestamp.toNat := by
  rw [stampAt_eq]
  exact ArrayHeap.keyAt_of_lt hi

theorem entryLess_eq (h : Array (CacheLineEntry Key Value)) (i j : ℕ) :
    entryLess h i j = ArrayHeap.less age h i j := by
  unfold entryLess ArrayHeap.less
  cases h[i]? with
  | none => rfl
  | some a =>
    cases h[j]? with
    | none => rfl
    | some b => exact decide_eq_decide.mpr UInt64.lt_iff_toNat_lt

private theorem parent_eq (curr : ℕ) : (curr + 1) / 2 - 1 = parent curr := by
  unfold parent
  omega

theorem siftUp_eq (h : Array (CacheLineEntry Key Value)) (curr : ℕ) :
    siftUp h curr = ArrayHeap.siftUp age parent h curr := by
  suffices hloop : ∀ fuel (h : Array (CacheLineEntry Key Value)) curr,
      siftUp.loop fuel h curr = ArrayHeap.siftUp.loop age parent fuel h curr from
    hloop curr h curr
  intro fuel
  induction fuel with
  | zero => exact fun _ _ => rfl
  | succ fuel ih =>
    intro h curr
    simp only [siftUp.loop, ArrayHeap.siftUp.loop, parent_eq, entryLess_eq, ih]

theorem smallestOf_eq (h : Array (CacheLineEntry Key Value)) (curr : ℕ) :
    smallestOf h curr = ArrayHeap.smallestOf age h curr := by
  simp only [smallestOf, ArrayHeap.smallestOf, entryLess_eq, Nat.mul_comm curr 2]

theorem siftDown_eq (h : Array (CacheLineEntry Key Value)) (curr : ℕ) :
    siftDown h curr = ArrayHeap.siftDown age h curr := by
  suffices hloop : ∀ fuel (h : Array (CacheLineEntry Key Value)) curr,
      siftDown.loop fuel h curr = ArrayHeap.siftDown.loop age fuel h curr from
    hloop h.size h curr
  intro fuel
  induction fuel with
  | zero => exact fun _ _ => rfl
  | succ fuel ih =>
    intro h curr
    simp only [siftDown.loop, ArrayHeap.siftDown.loop, smallestOf_eq, ih]

theorem siftDown_perm (h : Array (CacheLineEntry Key Value)) (curr : ℕ) :
    (siftDown h curr).toList.Perm h.toList := by
  rw [siftDown_eq]
  exact ArrayHeap.siftDown_perm age h curr

theorem siftDown_ordered (hcurr : curr < h.size) (hord : OrderedButBelow (stampAt h) h.size curr) :
    Ordered (stampAt (siftDown h curr)) h.size := by
  rw [stampAt_eq] at hord ⊢
  rw [siftDown_eq]
  exact ArrayHeap.siftDown_ordered hcurr hord

/-! ## The heap operations of a line -/

theorem insertEntry_perm (h : Array (CacheLineEntry Key Value)) (elem : CacheLineEntry Key Value) :
    (insertEntry h elem).toList.Perm (elem :: h.toList) := by
  unfold insertEntry
  rw [siftUp_eq]
  apply (ArrayHeap.siftUp_perm _ _).trans
  rw [Array.toList_push]
  exact List.perm_append_singleton _ _

theorem insertEntry_ordered (elem : CacheLineEntry Key Value) (hord : Ordered (stampAt h) h.size) :
    Ordered (stampAt (insertEntry h elem)) (insertEntry h elem).size := by
  have hsize : (insertEntry h elem).size = (h.push elem).size := by
    simpa using (insertEntry_perm h elem).length_eq
  rw [stampAt_eq] at hord ⊢
  rw [hsize, insertEntry, siftUp_eq]
  exact ArrayHeap.siftUp_ordered (by simp) (ArrayHeap.push_orderedButAbove elem hord)

theorem extractMin_eq (h : Array (CacheLineEntry Key Value)) :
    extractMin h = ArrayHeap.popRoot age h := siftDown_eq _ 0

/-- `extract_min` takes away the root and nothing else. -/
theorem extractMin_perm (hpos : 0 < h.size) : (h[0] :: (extractMin h).toList).Perm h.toList := by
  rw [extractMin_eq]
  exact ArrayHeap.popRoot_perm hpos

theorem extractMin_ordered (hord : Ordered (stampAt h) h.size) :
    Ordered (stampAt (extractMin h)) (extractMin h).size := by
  rw [stampAt_eq] at hord ⊢
  rw [extractMin_eq]
  exact ArrayHeap.popRoot_ordered hord

/-- The root of a heap is its oldest entry. -/
theorem root_le_of_mem {entry : CacheLineEntry Key Value} (hord : Ordered (stampAt h) h.size)
    (hpos : 0 < h.size) (hmem : entry ∈ h.toList) :
    h[0].timestamp.toNat ≤ entry.timestamp.toNat := by
  rw [stampAt_eq] at hord
  exact ArrayHeap.root_le_of_mem hord hpos hmem

theorem getElem_cons_perm (hi : i < h.size) : (h[i] :: h.toList.eraseIdx i).Perm h.toList :=
  List.getElem_cons_eraseIdx_perm (l := h.toList) (by simpa using hi)

/-- Replacing a slot by a younger entry and sifting it down: the common end of
`get` and `update`. -/
theorem replace_perm (hi : i < h.size) (elem : CacheLineEntry Key Value) :
    (siftDown (h.setIfInBounds i elem) i).toList.Perm (elem :: h.toList.eraseIdx i) := by
  apply (siftDown_perm _ _).trans
  rw [Array.toList_setIfInBounds]
  exact List.set_perm_cons_eraseIdx (by simpa using hi) elem

/-- `increase_key` of a slot just written replaces that slot once. -/
theorem increaseKey_set (hi : i < h.size) (elem : CacheLineEntry Key Value) (newKey : UInt64) :
    increaseKey (h.setIfInBounds i elem) i newKey =
      siftDown (h.setIfInBounds i { elem with timestamp := newKey }) i := by
  unfold increaseKey
  rw [Array.getElem?_setIfInBounds_self_of_lt hi]
  simp only [Array.setIfInBounds_setIfInBounds]

theorem replace_ordered {elem : CacheLineEntry Key Value} (hord : Ordered (stampAt h) h.size)
    (hi : i < h.size) (hle : h[i].timestamp.toNat ≤ elem.timestamp.toNat) :
    Ordered (stampAt (siftDown (h.setIfInBounds i elem) i))
      (siftDown (h.setIfInBounds i elem) i).size := by
  have hset : (h.setIfInBounds i elem).size = h.size := by simp
  have hsize : (siftDown (h.setIfInBounds i elem) i).size = (h.setIfInBounds i elem).size := by
    simpa using (siftDown_perm (h.setIfInBounds i elem) i).length_eq
  rw [hsize]
  apply siftDown_ordered (by rwa [hset])
  rw [hset]
  apply hord.increase hi
  · intro k hne
    simp only [stampAt]
    rw [Array.getElem?_setIfInBounds_ne (Ne.symm hne)]
  · rw [stampAt_of_lt hi, stampAt_of_lt (by rwa [hset]), Array.getElem_setIfInBounds_self]
    exact hle

end InterviewQuestions.LruCache

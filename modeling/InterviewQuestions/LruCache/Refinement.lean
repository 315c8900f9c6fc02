import InterviewQuestions.Library.RecencySet
import InterviewQuestions.LruCache.Model

/-! A cache used as its interface intends, with insertions of keys that are not
cached, is a family of least-recently-used sets, one for each line. -/
namespace InterviewQuestions.LruCache

open Library Library.HeapOrder

variable {Key Value : Type*} {cap : ℕ+}

def CacheLineEntry.binding (entry : CacheLineEntry Key Value) : Key × Value :=
  (entry.key, entry.val)

/-- The bindings of a line by age of their timestamps, the oldest first. -/
def CacheLine.byRecency (line : CacheLine Key Value) : List (Key × Value) :=
  (line.minHeap.toList.mergeSort fun a b => a.timestamp ≤ b.timestamp).map
    CacheLineEntry.binding

/-- The timestamps of a list of entries ascend strictly and lie before `now`. -/
structure Aged (now : ℕ) (entries : List (CacheLineEntry Key Value)) : Prop where
  ascending : entries.Pairwise fun a b => a.timestamp.toNat < b.timestamp.toNat
  past : ∀ entry ∈ entries, entry.timestamp.toNat < now

/-- A line stands for a set: its heap is ordered, and its entries by age are the
bindings of the set by recency. -/
structure Represents (line : CacheLine Key Value) (now : ℕ) (set : RecencySet Key Value cap) :
    Prop where
  assoc : line.assoc = cap
  heap : Ordered (stampAt line.minHeap) line.minHeap.size
  entries : ∃ byAge, byAge.Perm line.minHeap.toList ∧ Aged now byAge ∧
    byAge.map CacheLineEntry.binding = set.entries

theorem Aged.mono {now later : ℕ} {entries : List (CacheLineEntry Key Value)}
    (h : Aged now entries) (hle : now ≤ later) : Aged later entries :=
  ⟨h.ascending, fun entry hmem => (h.past entry hmem).trans_le hle⟩

theorem Aged.sublist {now : ℕ} {entries fewer : List (CacheLineEntry Key Value)}
    (h : Aged now entries) (hsub : fewer.Sublist entries) : Aged now fewer :=
  ⟨h.ascending.sublist hsub, fun entry hmem => h.past entry (hsub.subset hmem)⟩

theorem Aged.eq_of_stamp {now : ℕ} {entries : List (CacheLineEntry Key Value)}
    (h : Aged now entries) {a b : CacheLineEntry Key Value} (ha : a ∈ entries) (hb : b ∈ entries)
    (hab : a.timestamp.toNat = b.timestamp.toNat) : a = b := by
  have hnodup : (entries.map fun entry => entry.timestamp.toNat).Nodup :=
    List.pairwise_map.mpr (h.ascending.imp fun hlt => hlt.ne)
  exact List.inj_on_of_nodup_map hnodup ha hb hab

theorem Aged.append {now : ℕ} {entries : List (CacheLineEntry Key Value)}
    {entry : CacheLineEntry Key Value} (h : Aged now entries)
    (hnow : entry.timestamp.toNat = now) : Aged (now + 1) (entries ++ [entry]) where
  ascending := by
    rw [List.pairwise_append]
    refine ⟨h.ascending, List.pairwise_singleton _ _, ?_⟩
    intro a ha b hb
    rw [List.mem_singleton.mp hb, hnow]
    exact h.past a ha
  past := by
    intro a ha
    cases List.mem_append.mp ha with
    | inl ha => exact Nat.lt_succ_of_lt (h.past a ha)
    | inr ha =>
      rw [List.mem_singleton.mp ha, hnow]
      exact Nat.lt_succ_self now

theorem Represents.mono {line : CacheLine Key Value} {now later : ℕ}
    {set : RecencySet Key Value cap} (h : Represents line now set) (hle : now ≤ later) :
    Represents line later set := by
  obtain ⟨byAge, hperm, haged, hset⟩ := h.entries
  exact ⟨h.assoc, h.heap, byAge, hperm, haged.mono hle, hset⟩

theorem represents_empty (now : ℕ) :
    Represents (⟨#[], cap⟩ : CacheLine Key Value) now (RecencySet.empty : RecencySet _ _ cap) where
  assoc := rfl
  heap := fun i _ hi => absurd hi (Nat.not_lt_zero i)
  entries := ⟨[], List.Perm.refl _, ⟨List.Pairwise.nil, by simp⟩, rfl⟩

/-- Sorting a line by timestamp recovers the set it stands for. -/
theorem Represents.byRecency_eq {line : CacheLine Key Value} {now : ℕ}
    {set : RecencySet Key Value cap} (h : Represents line now set) :
    line.byRecency = set.entries := by
  obtain ⟨byAge, hperm, haged, hset⟩ := h.entries
  rw [← hset, CacheLine.byRecency]
  congr 1
  let le : CacheLineEntry Key Value → CacheLineEntry Key Value → Bool :=
    fun a b => a.timestamp ≤ b.timestamp
  have hle : ∀ a b, le a b = true ↔ a.timestamp.toNat ≤ b.timestamp.toNat := by
    intro a b
    simp [le, UInt64.le_iff_toNat_le]
  have hsorted : (line.minHeap.toList.mergeSort le).Pairwise fun a b => le a b = true := by
    apply List.pairwise_mergeSort
    · intro a b c
      rw [hle, hle, hle]
      exact Nat.le_trans
    · intro a b
      rw [Bool.or_eq_true, hle, hle]
      exact Nat.le_total _ _
  have hpermSorted := (List.mergeSort_perm line.minHeap.toList le).trans hperm.symm
  apply List.Perm.eq_of_pairwise _ hsorted
    (haged.ascending.imp fun hlt => (hle _ _).mpr hlt.le) hpermSorted
  intro a b ha hb hab hba
  have hage : a.timestamp.toNat = b.timestamp.toNat :=
    Nat.le_antisymm ((hle a b).mp hab) ((hle b a).mp hba)
  exact haged.eq_of_stamp (hpermSorted.mem_iff.mp ha) hb hage

/-! ## Operations of one line -/

theorem Represents.mem_keys {line : CacheLine Key Value} {now : ℕ}
    {set : RecencySet Key Value cap} (h : Represents line now set) (k : Key) :
    k ∈ set.entries.map Prod.fst ↔ ∃ entry ∈ line.minHeap.toList, entry.key = k := by
  obtain ⟨byAge, hperm, _, hset⟩ := h.entries
  rw [← hset, List.map_map, List.mem_map]
  constructor
  · rintro ⟨entry, hmem, hk⟩
    exact ⟨entry, hperm.mem_iff.mp hmem, hk⟩
  · rintro ⟨entry, hmem, hk⟩
    exact ⟨entry, hperm.mem_iff.mpr hmem, hk⟩

theorem Represents.size_eq {line : CacheLine Key Value} {now : ℕ}
    {set : RecencySet Key Value cap} (h : Represents line now set) :
    line.minHeap.size = set.entries.length := by
  obtain ⟨byAge, hperm, _, hset⟩ := h.entries
  rw [← hset, List.length_map, hperm.length_eq, Array.length_toList]

/-- The root of the heap is the oldest entry, so extracting it drops the head of the age order. -/
theorem extractMin_byAge {minHeap : Array (CacheLineEntry Key Value)} {now : ℕ}
    {byAge : List (CacheLineEntry Key Value)} (hord : Ordered (stampAt minHeap) minHeap.size)
    (hperm : byAge.Perm minHeap.toList) (haged : Aged now byAge) (hpos : 0 < minHeap.size) :
    byAge.tail.Perm (extractMin minHeap).toList := by
  cases byAge with
  | nil =>
    have := hperm.length_eq
    rw [List.length_nil, Array.length_toList] at this
    omega
  | cons oldest younger =>
    have hroot : minHeap[0] = oldest := by
      have hmem : minHeap[0] ∈ oldest :: younger :=
        hperm.mem_iff.mpr (Array.getElem_mem_toList hpos)
      have hle := root_le_of_mem hord hpos (hperm.mem_iff.mp List.mem_cons_self)
      cases List.mem_cons.mp hmem with
      | inl heq => exact heq
      | inr hyounger =>
        have hlt := (List.pairwise_cons.mp haged.ascending).1 _ hyounger
        omega
    have hextract := (extractMin_perm hpos).trans hperm.symm
    rw [hroot] at hextract
    exact hextract.cons_inv.symm

theorem Represents.insert [DecidableEq Key] {line : CacheLine Key Value} {currTime : UInt64}
    {set : RecencySet Key Value cap} (h : Represents line currTime.toNat set) {k : Key}
    (hfresh : k ∉ set.entries.map Prod.fst) (val : Value) :
    Represents (line.insert currTime k val) (currTime.toNat + 1) (set.insert k val) := by
  obtain ⟨byAge, hperm, haged, hset⟩ := h.entries
  have hfull : line.minHeap.size = line.assoc ↔ set.entries.length = cap := by
    rw [h.size_eq, h.assoc]
  refine ⟨h.assoc, insertEntry_ordered _ ?_, ?_⟩
  · split
    · exact extractMin_ordered h.heap
    · exact h.heap
  rw [RecencySet.insert_fresh hfresh, ← hset]
  simp only [List.length_map, CacheLine.insert, h.size_eq, h.assoc, ← hset]
  by_cases hcap : byAge.length = cap
  · rw [if_pos hcap, if_pos hcap]
    have hpos : 0 < line.minHeap.size := by
      rw [h.size_eq, ← hset, List.length_map, hcap]
      exact cap.pos
    refine ⟨byAge.tail ++ [⟨currTime, k, val⟩], ?_, ?_, ?_⟩
    · apply (List.perm_append_singleton _ _).trans
      exact ((extractMin_byAge h.heap hperm haged hpos).cons _).trans (insertEntry_perm _ _).symm
    · exact (haged.sublist (List.tail_sublist _)).append rfl
    · rw [List.map_append, List.map_tail]
      rfl
  · rw [if_neg hcap, if_neg hcap]
    refine ⟨byAge ++ [⟨currTime, k, val⟩], ?_, haged.append rfl, ?_⟩
    · apply (List.perm_append_singleton _ _).trans
      exact (hperm.cons _).trans (insertEntry_perm _ _).symm
    · rw [List.map_append]
      rfl

/-- `find_by_key` stops at an entry of the key, or at the end when there is none. -/
theorem findByKey_cases [DecidableEq Key] (line : CacheLine Key Value) (k : Key) :
    (line.minHeap[line.findByKey k]? = none ∧ ∀ entry ∈ line.minHeap.toList, entry.key ≠ k) ∨
    ∃ hlt : line.findByKey k < line.minHeap.size, line.minHeap[line.findByKey k].key = k := by
  by_cases hany : ∃ entry ∈ line.minHeap.toList, entry.key = k
  · right
    have hlt : line.findByKey k < line.minHeap.toList.length := by
      apply List.findIdx_lt_length_of_exists
      simpa using hany
    refine ⟨by simpa using hlt, ?_⟩
    have hfound := List.findIdx_getElem
      (p := fun entry : CacheLineEntry Key Value => decide (entry.key = k)) (w := hlt)
    exact of_decide_eq_true hfound
  · left
    have hnone : ∀ entry ∈ line.minHeap.toList, entry.key ≠ k := by
      simpa using hany
    refine ⟨?_, hnone⟩
    rw [Array.getElem?_eq_none_iff, ← Array.length_toList]
    exact (List.findIdx_eq_length.mpr (by simpa using hnone)).ge

/-- Giving the entry of a held key a younger timestamp is a refresh of the set. -/
theorem Represents.refresh [DecidableEq Key] {line : CacheLine Key Value} {currTime : UInt64}
    {set : RecencySet Key Value cap} (h : Represents line currTime.toNat set) {k : Key} {i : ℕ}
    (hi : i < line.minHeap.size) (hkey : line.minHeap[i].key = k) (val : Value) :
    Represents { line with
        minHeap := siftDown (line.minHeap.setIfInBounds i ⟨currTime, k, val⟩) i }
      (currTime.toNat + 1) (set.refresh k val) := by
  have hmemHeap : line.minHeap[i] ∈ line.minHeap.toList := Array.getElem_mem_toList hi
  have hheld := (h.mem_keys k).mpr ⟨_, hmemHeap, hkey⟩
  obtain ⟨byAge, hperm, haged, hset⟩ := h.entries
  refine ⟨h.assoc, ?_, ?_⟩
  · exact replace_ordered h.heap hi (haged.past _ (hperm.mem_iff.mpr hmemHeap)).le
  · let kept := byAge.filter fun entry => decide (entry.key ≠ k)
    refine ⟨kept ++ [⟨currTime, k, val⟩], ?_, ?_, ?_⟩
    · have hsplit : (line.minHeap[i] :: line.minHeap.toList.eraseIdx i).Perm byAge := by
        refine List.Perm.trans ?_ hperm.symm
        exact getElem_cons_perm hi
      have hrest : kept.Perm (line.minHeap.toList.eraseIdx i) := by
        -- the keys of the line are distinct, so filtering out `k` removes slot `i` alone
        have hkeys : (byAge.map CacheLineEntry.key).Nodup := by
          have := set.nodup
          rwa [← hset, List.map_map] at this
        have hnodup := (hsplit.map CacheLineEntry.key).nodup_iff.mpr hkeys
        rw [List.map_cons, hkey, List.nodup_cons] at hnodup
        have hfilter := (hsplit.filter fun entry => decide (entry.key ≠ k)).symm
        rw [List.filter_cons_of_neg (by simp [hkey])] at hfilter
        refine hfilter.trans (List.Perm.of_eq (List.filter_eq_self.mpr ?_))
        intro entry hmem
        have hne : entry.key ≠ k := fun heq =>
          hnodup.1 (List.mem_map.mpr ⟨entry, hmem, heq⟩)
        simpa using hne
      apply (List.perm_append_singleton _ _).trans
      exact (hrest.cons _).trans (replace_perm hi _).symm
    · exact (haged.sublist List.filter_sublist).append rfl
    · rw [RecencySet.refresh_held hheld, RecencySet.others, ← hset, List.map_append,
        List.filter_map]
      rfl

theorem Represents.get [DecidableEq Key] {line : CacheLine Key Value} {currTime : UInt64}
    {set : RecencySet Key Value cap} (h : Represents line currTime.toNat set) (k : Key) :
    (line.get currTime k).2 = set.lookup k ∧
    (∀ val, set.lookup k = some val →
      Represents (line.get currTime k).1 (currTime.toNat + 1) (set.refresh k val)) ∧
    (set.lookup k = none → (line.get currTime k).1 = line) := by
  rcases findByKey_cases line k with ⟨hnone, hmiss⟩ | ⟨hlt, hkey⟩
  · have hlookup : set.lookup k = none := by
      rw [← Option.not_isSome_iff_eq_none, RecencySet.lookup_isSome, h.mem_keys]
      rintro ⟨entry, hmem, hk⟩
      exact hmiss entry hmem hk
    simp [CacheLine.get, hnone, hlookup]
  · have hmem : (k, line.minHeap[line.findByKey k].val) ∈ set.entries := by
      obtain ⟨byAge, hperm, _, hset⟩ := h.entries
      rw [← hset]
      refine List.mem_map.mpr ⟨_, hperm.mem_iff.mpr (Array.getElem_mem_toList hlt), ?_⟩
      rw [CacheLineEntry.binding, hkey]
    have hlookup := RecencySet.lookup_eq_some hmem
    have hsome := Array.getElem?_eq_getElem hlt
    refine ⟨by simp [CacheLine.get, hsome, hlookup], ?_, by simp [hlookup]⟩
    intro val hval
    rw [hlookup, Option.some.injEq] at hval
    have hrefresh := h.refresh hlt hkey val
    simpa [CacheLine.get, hsome, increaseKey, hkey, hval] using hrefresh

theorem Represents.update [DecidableEq Key] {line : CacheLine Key Value} {currTime : UInt64}
    {set : RecencySet Key Value cap} (h : Represents line currTime.toNat set) (k : Key)
    (val : Value) :
    Represents (line.update currTime k val) (currTime.toNat + 1) (set.refresh k val) := by
  rcases findByKey_cases line k with ⟨hnone, hmiss⟩ | ⟨hlt, hkey⟩
  · have hmissing : k ∉ set.entries.map Prod.fst := by
      rw [h.mem_keys]
      rintro ⟨entry, hmem, hk⟩
      exact hmiss entry hmem hk
    rw [RecencySet.refresh_missing hmissing, CacheLine.update, hnone]
    exact h.mono (Nat.le_succ _)
  · have hrefresh := h.refresh hlt hkey val
    have hsome := Array.getElem?_eq_getElem hlt
    simpa [CacheLine.update, hsome, increaseKey_set hlt, hkey] using hrefresh

/-! ## Runs of the whole cache -/

/-- The reference cache: a least-recently-used set for each line. -/
abbrev Reference (Key Value : Type*) (linesCount : ℕ) (cap : ℕ+) :=
  Fin linesCount → RecencySet Key Value cap

/-- A command acts on the set of the key's line only. -/
def Reference.step {linesCount : ℕ} [NeZero linesCount] [CacheKey Key] [DecidableEq Key]
    (sets : Reference Key Value linesCount cap) : Op Key Value →
      Reference Key Value linesCount cap × Option Value
  | .insert k val =>
      let i := LRUCache.lineIndex linesCount k
      (Function.update sets i ((sets i).insert k val), none)
  | .get k =>
      let i := LRUCache.lineIndex linesCount k
      match (sets i).lookup k with
      | none => (sets, none)
      | some val => (Function.update sets i ((sets i).refresh k val), some val)
  | .update k val =>
      let i := LRUCache.lineIndex linesCount k
      (Function.update sets i ((sets i).refresh k val), none)

def LRUCache.Cached {linesCount : ℕ} [NeZero linesCount] [CacheKey Key]
    (cache : LRUCache Key Value linesCount) (k : Key) : Prop :=
  ∃ entry ∈ (cache.lines (LRUCache.lineIndex linesCount k)).minHeap.toList, entry.key = k

instance {linesCount : ℕ} [NeZero linesCount] [CacheKey Key] [DecidableEq Key]
    (cache : LRUCache Key Value linesCount) (k : Key) : Decidable (cache.Cached k) :=
  inferInstanceAs (Decidable (∃ entry ∈
    (cache.lines (LRUCache.lineIndex linesCount k)).minHeap.toList, entry.key = k))

/-- A key is inserted only when it is not currently cached. -/
def LRUCache.InsertsFresh {linesCount : ℕ} [NeZero linesCount] [CacheKey Key]
    (cache : LRUCache Key Value linesCount) : Op Key Value → Prop
  | .insert k _ => ¬ cache.Cached k
  | _ => True

instance {linesCount : ℕ} [NeZero linesCount] [CacheKey Key] [DecidableEq Key]
    (cache : LRUCache Key Value linesCount) : ∀ op, Decidable (cache.InsertsFresh op)
  | .insert k _ => inferInstanceAs (Decidable (¬ cache.Cached k))
  | .get _ => isTrue trivial
  | .update _ _ => isTrue trivial

variable {linesCount : ℕ}

def Simulates (cache : LRUCache Key Value linesCount) (sets : Reference Key Value linesCount cap) :
    Prop :=
  ∀ i, Represents (cache.lines i) cache.timestamp.toNat (sets i)

theorem simulates_create (blocks : ℕ) :
    Simulates (LRUCache.create blocks cap : LRUCache Key Value _)
      (fun _ => (RecencySet.empty : RecencySet Key Value cap)) := by
  intro i
  exact represents_empty _

/-- One line moves to a new set; the others only see time pass. -/
theorem Simulates.setLine {cache : LRUCache Key Value linesCount}
    {sets : Reference Key Value linesCount cap} (h : Simulates cache sets) {i : Fin linesCount}
    {line : CacheLine Key Value} {timestamp : UInt64} {set : RecencySet Key Value cap}
    (hline : Represents line timestamp.toNat set)
    (hle : cache.timestamp.toNat ≤ timestamp.toNat) :
    Simulates ⟨Function.update cache.lines i line, timestamp⟩ (Function.update sets i set) := by
  intro j
  by_cases hji : j = i
  · subst hji
    simpa using hline
  · rw [Function.update_of_ne hji]
    simp only [Function.update_of_ne hji]
    exact (h j).mono hle

variable [NeZero linesCount] [CacheKey Key] [DecidableEq Key]

private theorem toNat_succ {timestamp : UInt64} (h : timestamp.toNat + 1 < 2 ^ 64) :
    (timestamp + 1).toNat = timestamp.toNat + 1 := by
  rw [UInt64.toNat_add, UInt64.toNat_one, Nat.mod_eq_of_lt h]

theorem Simulates.step {cache : LRUCache Key Value linesCount}
    {sets : Reference Key Value linesCount cap} (h : Simulates cache sets) (op : Op Key Value)
    (hfresh : cache.InsertsFresh op) (htime : cache.timestamp.toNat + 1 < 2 ^ 64) :
    Simulates (cache.step op).1 (Reference.step sets op).1 ∧
      (cache.step op).2 = (Reference.step sets op).2 := by
  have hsucc := toNat_succ htime
  have hle : cache.timestamp.toNat ≤ (cache.timestamp + 1).toNat := by omega
  cases op with
  | insert k val =>
    have hmissing := mt ((h (LRUCache.lineIndex linesCount k)).mem_keys k).mp hfresh
    have hline := (h (LRUCache.lineIndex linesCount k)).insert hmissing val
    rw [← hsucc] at hline
    exact ⟨h.setLine hline hle, rfl⟩
  | update k val =>
    have hline := (h (LRUCache.lineIndex linesCount k)).update k val
    rw [← hsucc] at hline
    exact ⟨h.setLine hline hle, rfl⟩
  | get k =>
    obtain ⟨hout, hhit, hmiss⟩ := (h (LRUCache.lineIndex linesCount k)).get k
    simp only [LRUCache.step, LRUCache.get, Reference.step]
    cases hlookup : (sets (LRUCache.lineIndex linesCount k)).lookup k with
    | none =>
      have hsame := hmiss hlookup
      rw [hlookup] at hout
      simp only [hout, hsame, Option.isSome_none, Bool.false_eq_true, if_false, and_true]
      rw [Function.update_eq_self]
      exact h
    | some val =>
      have hline := hhit val hlookup
      rw [← hsucc] at hline
      rw [hlookup] at hout
      simp only [hout, Option.isSome_some, if_true, and_true]
      exact h.setLine hline hle

theorem timestamp_step_le (cache : LRUCache Key Value linesCount) (op : Op Key Value)
    (htime : cache.timestamp.toNat + 1 < 2 ^ 64) :
    (cache.step op).1.timestamp.toNat ≤ cache.timestamp.toNat + 1 := by
  have hsucc := toNat_succ htime
  cases op with
  | insert k val => exact hsucc.le
  | update k val => exact hsucc.le
  | get k =>
    simp only [LRUCache.step, LRUCache.get]
    split
    · exact hsucc.le
    · exact Nat.le_succ _

/-- From the empty cache, runs with fewer than `2 ^ 64` commands answer every `get` as
the reference does, and leave each line with the reference's bindings in the
reference's order of use. -/
theorem run_refines_reference (blocks : ℕ) (assoc : ℕ+) [NeZero (blocks / (assoc : ℕ))]
    (ops : List (Op Key Value)) (hlength : ops.length < 2 ^ 64)
    (hfresh : Machine.Admits LRUCache.step LRUCache.InsertsFresh
      (LRUCache.create blocks assoc : LRUCache Key Value (blocks / (assoc : ℕ))) ops) :
    let cache := Machine.run LRUCache.step
      (LRUCache.create blocks assoc : LRUCache Key Value (blocks / (assoc : ℕ))) ops
    let sets := Machine.run Reference.step
      (fun _ => RecencySet.empty : Reference Key Value (blocks / (assoc : ℕ)) assoc) ops
    cache.2 = sets.2 ∧ ∀ i, (cache.1.lines i).byRecency = (sets.1 i).entries := by
  have htime : Machine.Admits LRUCache.step (fun cache _ => cache.timestamp.toNat + 1 < 2 ^ 64)
      (LRUCache.create blocks assoc : LRUCache Key Value (blocks / (assoc : ℕ))) ops :=
    Machine.admits_of_length (fun cache => cache.timestamp.toNat) (2 ^ 64)
      (fun cache op h => timestamp_step_le cache op h) (by simpa [LRUCache.create] using hlength)
  obtain ⟨hlast, houts⟩ := Machine.run_simulates Simulates
    (fun cache sets op hsim hok => hsim.step op hok.1 hok.2) (simulates_create blocks)
    (hfresh.and htime)
  exact ⟨houts, fun i => (hlast i).byRecency_eq⟩

/-- The commands of `sample_16_4assoc.in` that reach the cache. -/
def sampleSession : List (Op UInt64 ℤ) :=
  [.get 0x0, .get 0x1, .insert 0x4 1, .insert 0x8 2, .insert 0x10 3, .insert 0x5 4, .insert 0x6 5,
    .insert 0x7 6, .insert 0x20 7, .get 0x4, .insert 0x40 8, .update 0x10 99, .update 0x20 77,
    .insert 0x80 44, .get 0x6]

instance neZero_sampleLines : NeZero (16 / ((4 : ℕ+) : ℕ)) := ⟨by decide⟩

/-- The heap layout that the driver prints for line 0 at the end of the session. -/
example : ((Machine.run LRUCache.step (LRUCache.create 16 4 : LRUCache _ _ (16 / ((4 : ℕ+) : ℕ)))
    sampleSession).1.lines 0).minHeap.toList.map CacheLineEntry.binding =
    [(0x40, 8), (0x10, 99), (0x20, 77), (0x80, 44)] := by
  decide +kernel

theorem run_refines_reference_sample :
    let cache := Machine.run LRUCache.step (LRUCache.create 16 (4 : ℕ+)) sampleSession
    let sets := Machine.run Reference.step
      (fun _ => RecencySet.empty : Reference UInt64 ℤ (16 / ((4 : ℕ+) : ℕ)) 4) sampleSession
    cache.2 = sets.2 ∧ ∀ i, (cache.1.lines i).byRecency = (sets.1 i).entries :=
  run_refines_reference 16 4 sampleSession (by decide) (by decide +kernel)

end InterviewQuestions.LruCache

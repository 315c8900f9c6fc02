import InterviewQuestions.LruCache.Refinement

/-! `CacheLine::insert` does not look for the key it inserts. A cache keeps the
keys of each line distinct, and answers with the latest value, exactly as long
as no insertion leaves an old entry of its key behind. -/
namespace InterviewQuestions.LruCache

open Library

variable {Key Value : Type*}

theorem CacheLine.insert_perm (line : CacheLine Key Value) (currTime : UInt64) (k : Key)
    (val : Value) :
    (line.insert currTime k val).minHeap.toList.Perm
      (⟨currTime, k, val⟩ :: (if line.minHeap.size = line.assoc then extractMin line.minHeap
        else line.minHeap).toList) :=
  insertEntry_perm _ _

private theorem not_mem_rest {entry : CacheLineEntry Key Value}
    {entries rest : List (CacheLineEntry Key Value)}
    (hnodup : (entries.map CacheLineEntry.key).Nodup) (hsplit : entries.Perm (entry :: rest)) :
    (rest.map CacheLineEntry.key).Nodup ∧
      ∀ other ∈ rest, other ∈ entries ∧ other.key ≠ entry.key := by
  have hcons := (hsplit.map CacheLineEntry.key).nodup_iff.mp hnodup
  rw [List.map_cons, List.nodup_cons] at hcons
  refine ⟨hcons.2, fun other hmem => ⟨?_, ?_⟩⟩
  · exact hsplit.mem_iff.mpr (List.mem_cons_of_mem _ hmem)
  · exact fun heq => hcons.1 (List.mem_map.mpr ⟨other, hmem, heq⟩)

private theorem nodup_write {k : Key} {val : Value} {currTime : UInt64}
    {line : CacheLine Key Value} {kept : List (CacheLineEntry Key Value)}
    (hline : line.minHeap.toList.Perm (⟨currTime, k, val⟩ :: kept))
    (hkept : (kept.map CacheLineEntry.key).Nodup) (hne : ∀ entry ∈ kept, entry.key ≠ k) :
    (line.minHeap.toList.map CacheLineEntry.key).Nodup := by
  rw [(hline.map CacheLineEntry.key).nodup_iff, List.map_cons, List.nodup_cons]
  refine ⟨?_, hkept⟩
  intro hmem
  obtain ⟨entry, hentry, heq⟩ := List.mem_map.mp hmem
  exact hne entry hentry heq

/-- No line holds two entries with the same key. -/
def LRUCache.DistinctKeys {linesCount : ℕ} (cache : LRUCache Key Value linesCount) : Prop :=
  ∀ i : Fin linesCount, ((cache.lines i).minHeap.toList.map CacheLineEntry.key).Nodup

theorem DistinctKeys.setLine {linesCount : ℕ} {cache : LRUCache Key Value linesCount}
    (h : cache.DistinctKeys) (i : Fin linesCount) {line : CacheLine Key Value} (timestamp : UInt64)
    (hline : (line.minHeap.toList.map CacheLineEntry.key).Nodup) :
    LRUCache.DistinctKeys ⟨Function.update cache.lines i line, timestamp⟩ := by
  intro j
  simp only [Function.update_apply]
  split
  · exact hline
  · exact h j

private theorem entry_eq {entry : CacheLineEntry Key Value} {k : Key} (h : entry.key = k) :
    entry = ⟨entry.timestamp, k, entry.val⟩ := by
  rw [← h]

variable [DecidableEq Key]

/-- What a `get` can do to a line: nothing on a miss, and a new timestamp for one
entry of the key on a hit. -/
theorem CacheLine.get_cases (line : CacheLine Key Value) (currTime : UInt64) (k : Key) :
    (line.get currTime k = (line, none) ∧ ∀ entry ∈ line.minHeap.toList, entry.key ≠ k) ∨
    ∃ val old rest, line.minHeap.toList.Perm (⟨old, k, val⟩ :: rest) ∧
      (line.get currTime k).2 = some val ∧
      (line.get currTime k).1.minHeap.toList.Perm (⟨currTime, k, val⟩ :: rest) := by
  rcases findByKey_cases line k with ⟨hnone, hmiss⟩ | ⟨hlt, hkey⟩
  · exact Or.inl ⟨by simp [CacheLine.get, hnone], hmiss⟩
  · right
    have hsplit := getElem_cons_perm hlt
    have hsome := Array.getElem?_eq_getElem hlt
    refine ⟨line.minHeap[line.findByKey k].val, line.minHeap[line.findByKey k].timestamp,
      line.minHeap.toList.eraseIdx (line.findByKey k), ?_, by simp [CacheLine.get, hsome], ?_⟩
    · rw [entry_eq hkey] at hsplit
      exact hsplit.symm
    · have hperm := replace_perm hlt ⟨currTime, k, line.minHeap[line.findByKey k].val⟩
      simpa [CacheLine.get, hsome, increaseKey, hkey] using hperm

theorem CacheLine.update_cases (line : CacheLine Key Value) (currTime : UInt64) (k : Key)
    (val : Value) :
    (line.update currTime k val = line ∧ ∀ entry ∈ line.minHeap.toList, entry.key ≠ k) ∨
    ∃ old was rest, line.minHeap.toList.Perm (⟨old, k, was⟩ :: rest) ∧
      (line.update currTime k val).minHeap.toList.Perm (⟨currTime, k, val⟩ :: rest) := by
  rcases findByKey_cases line k with ⟨hnone, hmiss⟩ | ⟨hlt, hkey⟩
  · exact Or.inl ⟨by simp [CacheLine.update, hnone], hmiss⟩
  · right
    have hsplit := getElem_cons_perm hlt
    have hsome := Array.getElem?_eq_getElem hlt
    refine ⟨line.minHeap[line.findByKey k].timestamp, line.minHeap[line.findByKey k].val,
      line.minHeap.toList.eraseIdx (line.findByKey k), ?_, ?_⟩
    · rw [entry_eq hkey] at hsplit
      exact hsplit.symm
    · have hperm := replace_perm hlt ⟨currTime, k, val⟩
      simpa [CacheLine.update, hsome, increaseKey_set hlt, hkey] using hperm

/-- The value most recently inserted or updated for a key. -/
def lastWrite (k : Key) (history : List (Op Key Value)) : Option Value :=
  history.foldl (fun latest op =>
    match op with
    | .insert k' val => if k' = k then some val else latest
    | .update k' val => if k' = k then some val else latest
    | .get _ => latest) none

@[simp] theorem lastWrite_insert (k k' : Key) (val : Value) (history : List (Op Key Value)) :
    lastWrite k (history ++ [.insert k' val]) =
      if k' = k then some val else lastWrite k history := by
  simp [lastWrite]

@[simp] theorem lastWrite_update (k k' : Key) (val : Value) (history : List (Op Key Value)) :
    lastWrite k (history ++ [.update k' val]) =
      if k' = k then some val else lastWrite k history := by
  simp [lastWrite]

@[simp] theorem lastWrite_get (k k' : Key) (history : List (Op Key Value)) :
    lastWrite k (history ++ [.get k']) = lastWrite k history := by
  simp [lastWrite]

variable {linesCount : ℕ} [NeZero linesCount] [CacheKey Key]

/-- In every state of the run the keys of each line are distinct, and every `get` that
hits returns the value most recently inserted or updated for its key. -/
def LRUCache.Coherent (cache : LRUCache Key Value linesCount) (ops : List (Op Key Value)) : Prop :=
  (∀ n, (Machine.run LRUCache.step cache (ops.take n)).1.DistinctKeys) ∧
  ∀ before k after val, ops = before ++ .get k :: after →
    ((Machine.run LRUCache.step cache before).1.get k).2 = some val →
    lastWrite k before = some val

/-- An insertion leaves no old entry of its key behind: the key is not cached, or its
entry is the root of the heap of a full line, which is evicted. -/
def LRUCache.InsertsReplace (cache : LRUCache Key Value linesCount) : Op Key Value → Prop
  | .insert k _ =>
      let line := cache.lines (LRUCache.lineIndex linesCount k)
      ¬ cache.Cached k ∨
        line.minHeap.size = line.assoc ∧ (line.minHeap[0]?).map CacheLineEntry.key = some k
  | _ => True

instance (cache : LRUCache Key Value linesCount) : ∀ op, Decidable (cache.InsertsReplace op)
  | .insert k _ => inferInstanceAs (Decidable (¬ cache.Cached k ∨
      (cache.lines (LRUCache.lineIndex linesCount k)).minHeap.size =
        (cache.lines (LRUCache.lineIndex linesCount k)).assoc ∧
      ((cache.lines (LRUCache.lineIndex linesCount k)).minHeap[0]?).map CacheLineEntry.key =
        some k))
  | .get _ => isTrue trivial
  | .update _ _ => isTrue trivial

/-- Every entry sits in the line of its key and holds the value last written for it. -/
def Current (cache : LRUCache Key Value linesCount) (history : List (Op Key Value)) : Prop :=
  ∀ i : Fin linesCount, ∀ entry ∈ (cache.lines i).minHeap.toList,
    LRUCache.lineIndex linesCount entry.key = i ∧ lastWrite entry.key history = some entry.val

/-- A key written into its line is in no other line, so only that line's entries can go stale. -/
theorem Current.writeLine {cache : LRUCache Key Value linesCount} {history : List (Op Key Value)}
    (h : Current cache history) {op : Op Key Value} {k : Key} {val : Value} {currTime : UInt64}
    {line : CacheLine Key Value} {kept : List (CacheLineEntry Key Value)} (timestamp : UInt64)
    (hop : ∀ k', lastWrite k' (history ++ [op]) = if k = k' then some val else lastWrite k' history)
    (hline : line.minHeap.toList.Perm (⟨currTime, k, val⟩ :: kept))
    (hkept : ∀ entry ∈ kept,
      entry ∈ (cache.lines (LRUCache.lineIndex linesCount k)).minHeap.toList ∧ entry.key ≠ k) :
    Current ⟨Function.update cache.lines (LRUCache.lineIndex linesCount k) line, timestamp⟩
      (history ++ [op]) := by
  intro i entry hmem
  simp only [Function.update_apply] at hmem
  rw [hop]
  split at hmem
  · rename_i hi
    subst hi
    rcases List.mem_cons.mp (hline.mem_iff.mp hmem) with rfl | hold
    · exact ⟨rfl, if_pos rfl⟩
    · obtain ⟨hin, hne⟩ := hkept entry hold
      rw [if_neg (Ne.symm hne)]
      exact h _ entry hin
  · rename_i hi
    have hentry := h i entry hmem
    have hne : k ≠ entry.key := fun heq => hi (by rw [heq, hentry.1])
    rw [if_neg hne]
    exact hentry

omit [DecidableEq Key] in
/-- The entries an insertion keeps, when it leaves no old entry of its key behind. -/
theorem InsertsReplace.kept {cache : LRUCache Key Value linesCount} {k : Key} {val : Value}
    (hok : cache.InsertsReplace (.insert k val)) (h : cache.DistinctKeys) :
    let line := cache.lines (LRUCache.lineIndex linesCount k)
    let kept := (if line.minHeap.size = line.assoc then extractMin line.minHeap
      else line.minHeap).toList
    (kept.map CacheLineEntry.key).Nodup ∧
      ∀ entry ∈ kept, entry ∈ line.minHeap.toList ∧ entry.key ≠ k := by
  intro line kept
  have hline := h (LRUCache.lineIndex linesCount k)
  by_cases hpos : 0 < line.minHeap.size
  · have hextract := not_mem_rest hline (extractMin_perm hpos).symm
    rcases hok with hmissing | ⟨hfull, hroot⟩
    · have hne : ∀ entry ∈ line.minHeap.toList, entry.key ≠ k := fun entry hmem heq =>
        hmissing ⟨entry, hmem, heq⟩
      by_cases hcap : line.minHeap.size = line.assoc
      · simp only [kept, if_pos hcap]
        exact ⟨hextract.1, fun entry hmem =>
          ⟨(hextract.2 entry hmem).1, hne entry (hextract.2 entry hmem).1⟩⟩
      · simp only [kept, if_neg hcap]
        exact ⟨hline, fun entry hmem => ⟨hmem, hne entry hmem⟩⟩
    · have hcap : line.minHeap.size = line.assoc := hfull
      have hkey : line.minHeap[0].key = k := by
        have hget := Array.getElem?_eq_getElem hpos
        rw [hget] at hroot
        simpa using hroot
      simp only [kept, if_pos hcap]
      rw [hkey] at hextract
      exact hextract
  · have hempty : line.minHeap.toList = [] := by
      rw [← List.length_eq_zero_iff, Array.length_toList]
      omega
    have hkept : kept = [] := by
      by_cases hcap : line.minHeap.size = line.assoc
      · simp only [kept, if_pos hcap]
        have hperm := siftDown_perm (line.minHeap.swapIfInBounds 0 (line.minHeap.size - 1)).pop 0
        rw [← List.length_eq_zero_iff]
        have hlen := hperm.length_eq
        simp only [Array.length_toList, Array.size_pop, Array.size_swapIfInBounds] at hlen
        simp only [extractMin, Array.length_toList]
        omega
      · simpa only [kept, if_neg hcap] using hempty
    rw [hkept]
    exact ⟨List.nodup_nil, by simp⟩

theorem update_current {cache : LRUCache Key Value linesCount} {history : List (Op Key Value)}
    (hdistinct : cache.DistinctKeys) (hcurrent : Current cache history) (k : Key) (val : Value) :
    (cache.step (.update k val)).1.DistinctKeys ∧
      Current (cache.step (.update k val)).1 (history ++ [.update k val]) := by
  rcases (cache.lines (LRUCache.lineIndex linesCount k)).update_cases cache.timestamp k val with
    ⟨hsame, hmiss⟩ | ⟨old, was, rest, hsplit, hperm⟩
  · constructor
    · apply DistinctKeys.setLine hdistinct
      rw [hsame]
      exact hdistinct _
    · intro i entry hmem
      simp only [LRUCache.step, LRUCache.update, Function.update_apply] at hmem
      have hin : entry ∈ (cache.lines i).minHeap.toList := by
        split at hmem
        · rename_i hi
          subst hi
          rwa [hsame] at hmem
        · exact hmem
      have hentry := hcurrent i entry hin
      have hne : k ≠ entry.key := by
        rintro rfl
        rw [← hentry.1] at hin
        exact hmiss entry hin rfl
      rw [lastWrite_update, if_neg hne]
      exact hentry
  · obtain ⟨hnodup, hkept⟩ := not_mem_rest (hdistinct _) hsplit
    exact ⟨DistinctKeys.setLine hdistinct _ _
        (nodup_write hperm hnodup fun entry hmem => (hkept entry hmem).2),
      hcurrent.writeLine _ (fun k' => lastWrite_update k' k val history) hperm hkept⟩

theorem get_current {cache : LRUCache Key Value linesCount} {history : List (Op Key Value)}
    (hdistinct : cache.DistinctKeys) (hcurrent : Current cache history) (k : Key) :
    (cache.step (.get k)).1.DistinctKeys ∧
      Current (cache.step (.get k)).1 (history ++ [.get k]) := by
  rcases (cache.lines (LRUCache.lineIndex linesCount k)).get_cases cache.timestamp k with
    ⟨hsame, _⟩ | ⟨val, old, rest, hsplit, _, hperm⟩
  · simp only [LRUCache.step, LRUCache.get, hsame]
    rw [Function.update_eq_self]
    refine ⟨hdistinct, fun i entry hmem => ?_⟩
    rw [lastWrite_get]
    exact hcurrent i entry hmem
  · obtain ⟨hnodup, hkept⟩ := not_mem_rest (hdistinct _) hsplit
    refine ⟨DistinctKeys.setLine hdistinct _ _
        (nodup_write hperm hnodup fun entry hmem => (hkept entry hmem).2),
      hcurrent.writeLine _ (fun k' => ?_) hperm hkept⟩
    -- the entry that is touched already holds the value last written for the key
    have hval := (hcurrent _ _ (hsplit.mem_iff.mpr List.mem_cons_self)).2
    rw [lastWrite_get]
    split
    · rename_i heq
      rw [← heq]
      exact hval
    · rfl

/-- One command that leaves no stale entry behind keeps the keys distinct and the values current. -/
theorem step_current {cache : LRUCache Key Value linesCount} {history : List (Op Key Value)}
    (hdistinct : cache.DistinctKeys) (hcurrent : Current cache history) (op : Op Key Value)
    (hok : cache.InsertsReplace op) :
    (cache.step op).1.DistinctKeys ∧ Current (cache.step op).1 (history ++ [op]) := by
  cases op with
  | insert k val =>
    obtain ⟨hnodup, hkept⟩ := InsertsReplace.kept hok hdistinct
    have hperm := (cache.lines (LRUCache.lineIndex linesCount k)).insert_perm cache.timestamp k val
    exact ⟨DistinctKeys.setLine hdistinct _ _
        (nodup_write hperm hnodup fun entry hmem => (hkept entry hmem).2),
      hcurrent.writeLine _ (fun k' => lastWrite_insert k' k val history) hperm hkept⟩
  | update k val => exact update_current hdistinct hcurrent k val
  | get k => exact get_current hdistinct hcurrent k

private theorem coherent_of_tracked {cache : LRUCache Key Value linesCount}
    {history ops : List (Op Key Value)} (hdistinct : cache.DistinctKeys)
    (hcurrent : Current cache history)
    (hok : Machine.Admits LRUCache.step LRUCache.InsertsReplace cache ops) :
    (∀ n, (Machine.run LRUCache.step cache (ops.take n)).1.DistinctKeys) ∧
    ∀ before k after val, ops = before ++ .get k :: after →
      ((Machine.run LRUCache.step cache before).1.get k).2 = some val →
      lastWrite k (history ++ before) = some val := by
  induction ops generalizing cache history with
  | nil => exact ⟨fun n => by simpa using hdistinct, by simp⟩
  | cons op ops ih =>
    obtain ⟨hdistinct', hcurrent'⟩ := step_current hdistinct hcurrent op hok.1
    obtain ⟨hstates, hgets⟩ := ih hdistinct' hcurrent' hok.2
    constructor
    · intro n
      cases n with
      | zero => simpa using hdistinct
      | succ n => simpa using hstates n
    · intro before k after val heq hhit
      cases before with
      | nil =>
        rw [Machine.run_nil] at hhit
        rcases (cache.lines (LRUCache.lineIndex linesCount k)).get_cases cache.timestamp k with
          ⟨hsame, _⟩ | ⟨found, old, rest, hsplit, hfound, _⟩
        · simp only [LRUCache.get, hsame] at hhit
          exact absurd hhit (by simp)
        · have hval := (hcurrent _ _ (hsplit.mem_iff.mpr List.mem_cons_self)).2
          simp only [LRUCache.get, hfound, Option.some.injEq] at hhit
          rw [List.append_nil, hval, hhit]
      | cons first before =>
        obtain ⟨rfl, rfl⟩ := List.cons.inj heq
        have hget := hgets before k after val rfl hhit
        rwa [List.append_assoc, List.singleton_append] at hget

/-- If the keys are still distinct after a command, it left no old entry of its key behind. -/
theorem insertsReplace_of_distinct {cache : LRUCache Key Value linesCount} {op : Op Key Value}
    (h : (cache.step op).1.DistinctKeys) : cache.InsertsReplace op := by
  cases op with
  | get k => trivial
  | update k val => trivial
  | insert k val =>
    by_cases hcached : cache.Cached k
    swap
    · exact Or.inl hcached
    right
    obtain ⟨entry, hmem, hkey⟩ := hcached
    have hnodup := h (LRUCache.lineIndex linesCount k)
    simp only [LRUCache.step, LRUCache.insert, Function.update_apply, if_true] at hnodup
    have hperm := (cache.lines (LRUCache.lineIndex linesCount k)).insert_perm cache.timestamp k val
    rw [(hperm.map CacheLineEntry.key).nodup_iff, List.map_cons, List.nodup_cons] at hnodup
    -- the new entry's key is not among the kept ones, though the line held an entry of it
    have hgone : ∀ other ∈ (if (cache.lines (LRUCache.lineIndex linesCount k)).minHeap.size =
        (cache.lines (LRUCache.lineIndex linesCount k)).assoc then
        extractMin (cache.lines (LRUCache.lineIndex linesCount k)).minHeap
        else (cache.lines (LRUCache.lineIndex linesCount k)).minHeap).toList, other.key ≠ k :=
      fun other hother heq => hnodup.1 (List.mem_map.mpr ⟨other, hother, heq⟩)
    split at hgone
    · rename_i hfull
      refine ⟨hfull, ?_⟩
      have hpos : 0 < (cache.lines (LRUCache.lineIndex linesCount k)).minHeap.size := by
        rw [← Array.length_toList]
        exact List.length_pos_of_mem hmem
      rw [Array.getElem?_eq_getElem hpos, Option.map_some, Option.some.injEq]
      cases List.mem_cons.mp ((extractMin_perm hpos).mem_iff.mpr hmem) with
      | inl hroot => rw [← hroot, hkey]
      | inr hkept => exact absurd hkey (hgone entry hkept)
    · exact absurd hkey (hgone entry hmem)

private theorem admits_of_distinct {cache : LRUCache Key Value linesCount}
    {ops : List (Op Key Value)}
    (h : ∀ n, (Machine.run LRUCache.step cache (ops.take n)).1.DistinctKeys) :
    Machine.Admits LRUCache.step LRUCache.InsertsReplace cache ops := by
  induction ops generalizing cache with
  | nil => trivial
  | cons op ops ih =>
    refine ⟨insertsReplace_of_distinct ?_, ih fun n => ?_⟩
    · simpa using h 1
    · simpa using h (n + 1)

/-- From the empty cache, a run is coherent exactly when none of its insertions leaves an
old entry of its key behind. -/
theorem coherent_iff_insertsReplace (blocks : ℕ) (assoc : ℕ+) [NeZero (blocks / (assoc : ℕ))]
    (ops : List (Op Key Value)) :
    let cache : LRUCache Key Value (blocks / (assoc : ℕ)) := LRUCache.create blocks assoc
    cache.Coherent ops ↔ Machine.Admits LRUCache.step LRUCache.InsertsReplace cache ops := by
  intro cache
  have hline : ∀ i : Fin (blocks / (assoc : ℕ)), (cache.lines i).minHeap.toList = [] := by
    intro i
    simp [cache, LRUCache.create]
  have hdistinct : cache.DistinctKeys := by
    intro i
    rw [hline]
    exact List.nodup_nil
  have hcurrent : Current cache [] := by
    intro i entry hmem
    rw [hline] at hmem
    exact absurd hmem List.not_mem_nil
  constructor
  · exact fun h => admits_of_distinct h.1
  · exact fun h => coherent_of_tracked hdistinct hcurrent h

instance neZero_oneLine : NeZero (2 / ((2 : ℕ+) : ℕ)) := ⟨by decide⟩

/-- The key 0 is inserted again while it is the oldest of a full line. -/
theorem coherent_iff_insertsReplace_oldest :
    (LRUCache.create 2 (2 : ℕ+) : LRUCache UInt64 ℤ (2 / ((2 : ℕ+) : ℕ))).Coherent
      [.insert 0 1, .insert 1 2, .insert 0 3, .get 0] :=
  (coherent_iff_insertsReplace 2 2 [.insert 0 1, .insert 1 2, .insert 0 3, .get 0]).mpr
    (by decide +kernel)

/-- Inserting one key twice leaves two entries in its line, and the next `get` returns the
older value. -/
theorem coherent_fails_on_reinsertion :
    ¬ (LRUCache.create 2 (2 : ℕ+) : LRUCache UInt64 ℤ (2 / ((2 : ℕ+) : ℕ))).Coherent
      [.insert 0 1, .insert 0 2, .get 0] := by
  intro hcoherent
  have hget := hcoherent.2 [.insert 0 1, .insert 0 2] 0 [] 1 rfl (by decide +kernel)
  exact absurd hget (by decide)

end InterviewQuestions.LruCache

import InterviewQuestions.Malloc.FreeList

/-! What a call of `malloc` computes in `size_t`. A request near the limit of the type wraps,
in the number of units or in the bytes for `sbrk`; every other one gets a block that is
large enough, or `NULL`. -/
namespace InterviewQuestions.Malloc

open Library Library.Extent

variable {lst fuel nbytes units : ℕ} {h h' : Heap} {blocks : List ℕ}

/-- The free list is a ring below the memory that `sbrk` returns next. -/
structure Ringed (lst : Address) (h : Heap) (blocks : List Address) : Prop where
  ring : FreeList lst h.mem blocks
  head : sizeAt h.mem lst = 0
  below : ∀ a : ℕ, a ∈ lst :: blocks → a < h.brk

/-- The unit count and the bytes passed to `sbrk` do not wrap, and the block returned, if any,
has room for `nbytes` bytes after its header. -/
structure Serves (lst : Address) (fuel nbytes : ℕ) (h : Heap) : Prop where
  unitCount : unitsFor nbytes = (nbytes + sizeofHeader - 1) / sizeofHeader + 1
  byteCount : ∀ units ∈ allocRequests lst fuel nbytes h,
    bytesFor units = (if units < ALLOC_MIN_UNITS then ALLOC_MIN_UNITS else units) * sizeofHeader
  returns : ∃ res h', malloc lst fuel nbytes h = some (res, h') ∧
    ∀ ptr ∈ res, sizeofHeader + nbytes ≤ sizeofHeader * sizeAt h'.mem (ptr - sizeofHeader)

/-! ## The arithmetic -/

theorem unitsFor_eq_iff :
    unitsFor nbytes = (nbytes + sizeofHeader - 1) / sizeofHeader + 1 ↔ nbytes + 23 < 2 ^ 64 := by
  unfold unitsFor sizeofHeader
  omega

theorem bytesFor_eq_iff :
    bytesFor units = (if units < ALLOC_MIN_UNITS then ALLOC_MIN_UNITS else units) * sizeofHeader ↔
      units * sizeofHeader < 2 ^ 64 := by
  unfold bytesFor sizeofHeader ALLOC_MIN_UNITS
  split <;> omega

/-- Sixteen bytes of `size_t` are left over after the largest multiple of a unit. -/
theorem unitsFor_bytes_iff (hunits : nbytes + 23 < 2 ^ 64) :
    unitsFor nbytes * sizeofHeader < 2 ^ 64 ↔ nbytes + 39 < 2 ^ 64 := by
  unfold unitsFor sizeofHeader
  omega

theorem room_of_units {size : ℕ} (hunits : nbytes + 23 < 2 ^ 64) (hle : unitsFor nbytes ≤ size) :
    sizeofHeader + nbytes ≤ sizeofHeader * size := by
  unfold unitsFor sizeofHeader at *
  omega

/-! ## The loop of `malloc` -/

/-- A free block that is large enough keeps its size when it is taken. -/
theorem taken_size {left right : List ℕ} {block : ℕ}
    (hring : FreeList lst h.mem (left ++ block :: right)) {units : ℕ} (hpos : 0 < units) :
    sizeAt (if sizeAt h.mem block = units then unlink h.mem block
      else splitBlock h.mem block units) block = sizeAt h.mem block := by
  split
  case isTrue => rw [(unlink_fields h.mem block).2.2]
  case isFalse =>
    have hne : block ≠ block + sizeofHeader * units :=
      Nat.ne_of_lt (Nat.lt_add_of_pos_right (Nat.mul_pos (by decide) hpos))
    rw [(splitBlock_fields hpos hring.prev_ne_self).2.2, Function.update_of_ne hne]

/-- The search of `malloc` for a block. -/
theorem scan_units (hring : FreeList lst h.mem blocks) (nbytes : ℕ)
    (hfuel : blocks.length < fuel) :
    ∃ left right n back, blocks = left ++ right ∧ right ++ [lst] = n :: back ∧
      (∀ a ∈ left, sizeAt h.mem a < unitsFor nbytes) ∧
      (n ≠ lst → unitsFor nbytes ≤ sizeAt h.mem n) ∧
      scan lst h.mem (fun block => (h.mem block).size < unitsFor nbytes) fuel (h.mem lst).next =
        some n := by
  rcases scan_spec hring (fun block => decide (sizeAt h.mem block < unitsFor nbytes)) hfuel with
    ⟨left, right, n, back, hsplit, hn, hscan, hleft, hstop⟩
  exact ⟨left, right, n, back, hsplit, hn, fun a ha => of_decide_eq_true (hleft a ha),
    fun hne => Nat.not_lt.mp fun hlt => hstop hne (decide_eq_true hlt), hscan⟩

/-- When a free block is large enough, `malloc` takes the first. -/
theorem malloc_fits (hring : FreeList lst h.mem blocks) (hfuel : blocks.length < fuel)
    (hsome : ∃ a ∈ blocks, unitsFor nbytes ≤ sizeAt h.mem a) :
    ∃ left right block, blocks = left ++ block :: right ∧
      (∀ a ∈ left, sizeAt h.mem a < unitsFor nbytes) ∧ unitsFor nbytes ≤ sizeAt h.mem block ∧
      malloc lst (fuel + 1) nbytes h = some (some (block + sizeofHeader), { h with
        mem := if sizeAt h.mem block = unitsFor nbytes then unlink h.mem block
          else splitBlock h.mem block (unitsFor nbytes) }) ∧
      allocRequests lst (fuel + 1) nbytes h = [] := by
  rcases scan_units hring nbytes hfuel with
    ⟨left, right, block, back, rfl, hn, hleft, hle, hscan⟩
  cases right with
  | nil =>
    rcases hsome with ⟨a, ha, hlarge⟩
    rw [List.append_nil] at ha
    exact absurd (hleft a ha) (Nat.not_lt.mpr hlarge)
  | cons b right =>
    rcases List.cons.inj hn with ⟨rfl, _⟩
    have hne : b ≠ lst := by
      rintro rfl
      exact (List.nodup_cons.mp hring.nodup).1 (by simp)
    refine ⟨left, right, b, rfl, hleft, hle hne, ?_, ?_⟩
    · rw [malloc, hscan, Option.bind_some, if_pos hne]
      by_cases hexact : sizeAt h.mem b = unitsFor nbytes
      · rw [if_pos hexact]
        exact if_pos hexact
      · rw [if_neg hexact]
        exact if_neg hexact
    · simp only [allocRequests, hscan, hne, ne_eq, not_false_eq_true, if_true]

/-- With no block large enough, `malloc` asks `alloc_mem`. -/
theorem malloc_asks (hring : FreeList lst h.mem blocks) (hfuel : blocks.length < fuel)
    (hsmall : ∀ a ∈ blocks, sizeAt h.mem a < unitsFor nbytes) :
    (∀ h', allocMem lst fuel h (unitsFor nbytes) = some (none, h') →
      malloc lst (fuel + 1) nbytes h = some (none, h') ∧
        allocRequests lst (fuel + 1) nbytes h = [unitsFor nbytes]) ∧
    ∀ allocated h', allocMem lst fuel h (unitsFor nbytes) = some (some allocated, h') →
      malloc lst (fuel + 1) nbytes h = malloc lst fuel nbytes h' ∧
        allocRequests lst (fuel + 1) nbytes h =
          unitsFor nbytes :: allocRequests lst fuel nbytes h' := by
  rcases scan_units hring nbytes hfuel with
    ⟨left, right, block, back, rfl, hn, _, hle, hscan⟩
  have hend : block = lst := by
    by_contra hne
    have hmem : block ∈ right ++ [lst] := by
      rw [hn]
      exact List.mem_cons_self
    rcases List.mem_append.mp hmem with hmem | hmem
    · exact absurd (hsmall block (List.mem_append_right left hmem)) (Nat.not_lt.mpr (hle hne))
    · exact hne (List.mem_singleton.mp hmem)
  rw [hend] at hscan
  apply And.intro
  · intro h' halloc
    simp only [malloc, allocRequests, hscan, Option.bind_some, ne_eq, not_true_eq_false, if_false,
      halloc, and_self]
  · intro allocated h' halloc
    simp only [malloc, allocRequests, hscan, Option.bind_some, ne_eq, not_true_eq_false, if_false,
      halloc, and_self]

/-- The memory from `sbrk` lies above the list and is freed as a block of the units asked for. -/
theorem allocMem_freed (hringed : Ringed lst h blocks) {gap : ℕ} (hsbrk : h.sbrks 0 = some gap)
    (hfuel : blocks.length < fuel) (units : ℕ) :
    ∃ mem' blocks', allocMem lst fuel h units = some (some (h.brk + gap),
        ⟨mem', h.brk + gap + bytesFor units, fun i => h.sbrks (i + 1),
          (h.brk + gap, bytesFor units) :: h.obtained⟩) ∧
      Freed lst (setSize h.mem (h.brk + gap) units) blocks (h.brk + gap) mem' blocks' ∧
      Merged sizeofHeader ((h.brk + gap, units) :: recorded h.mem blocks)
        (recorded mem' blocks') := by
  have habove : ∀ a : ℕ, a ∈ lst :: blocks → a < h.brk + gap := fun a ha =>
    (hringed.below a ha).trans_le (Nat.le_add_right _ _)
  have hlst : lst < h.brk + gap := habove lst List.mem_cons_self
  have hfresh : h.brk + gap ∉ blocks := fun hmem =>
    Nat.lt_irrefl _ (habove _ (List.mem_cons_of_mem lst hmem))
  have hring : FreeList lst (setSize h.mem (h.brk + gap) units) blocks := by
    rw [FreeList, nextOf_setSize, prevOf_setSize]
    exact hringed.ring
  have hhead : sizeAt (setSize h.mem (h.brk + gap) units) lst = 0 := by
    rw [sizeAt_setSize, Function.update_of_ne hlst.ne]
    exact hringed.head
  rcases free_spec hring hfresh hlst hhead hfuel with ⟨mem', blocks', hfree, hfreed⟩
  have hjoined := hfreed.joined
  rw [recorded_setSize hfresh] at hjoined
  refine ⟨mem', blocks', ?_, hfreed, hjoined⟩
  simp only [allocMem, Heap.sbrk, hsbrk, hfree, Option.map_some]

/-- Afterwards some free block has the units asked for. -/
theorem allocMem_spec (hringed : Ringed lst h blocks) {gap : ℕ} (hsbrk : h.sbrks 0 = some gap)
    (hfuel : blocks.length < fuel) :
    ∃ h' blocks', allocMem lst fuel h units = some (some (h.brk + gap), h') ∧
      FreeList lst h'.mem blocks' ∧ blocks'.length ≤ blocks.length + 1 ∧
      ∃ a ∈ blocks', units ≤ sizeAt h'.mem a := by
  rcases allocMem_freed hringed hsbrk hfuel units with
    ⟨mem', blocks', halloc, hfreed, hjoined⟩
  rcases hjoined.exists_le List.mem_cons_self with ⟨e, he, hle⟩
  rcases List.mem_map.mp he with ⟨a, ha, rfl⟩
  have hlength := hjoined.length_le
  simp only [recorded, List.length_cons, List.length_map] at hlength
  exact ⟨_, blocks', halloc, hfreed.ring, hlength, a, ha, hle⟩

theorem allocMem_null (hsbrk : h.sbrks 0 = none) (units : ℕ) :
    allocMem lst fuel h units = some (none, { h with sbrks := fun i => h.sbrks (i + 1) }) := by
  simp only [allocMem, Heap.sbrk, hsbrk]

/-! ## A call of `malloc` -/

/-- A call returns `NULL` or a block with the units asked for, and asks `alloc_mem` for them
just when no free block has as many. -/
theorem malloc_spec (hringed : Ringed lst h blocks) (nbytes : ℕ)
    (hfuel : blocks.length + 3 < fuel) :
    (∃ res h', malloc lst fuel nbytes h = some (res, h') ∧
      ∀ ptr ∈ res, unitsFor nbytes ≤ sizeAt h'.mem (ptr - sizeofHeader)) ∧
    ∀ units, units ∈ allocRequests lst fuel nbytes h ↔
      units = unitsFor nbytes ∧ ∀ a ∈ blocks, sizeAt h.mem a < unitsFor nbytes := by
  obtain ⟨fuel, rfl⟩ : ∃ k, fuel = k + 2 := ⟨fuel - 2, by omega⟩
  have hfuel₁ : blocks.length < fuel + 1 := by omega
  by_cases hsome : ∃ a ∈ blocks, unitsFor nbytes ≤ sizeAt h.mem a
  · have hring := hringed.ring
    rcases malloc_fits hring hfuel₁ hsome with
      ⟨left, right, block, hblocks, _, hle, hmalloc, hrequests⟩
    apply And.intro
    · refine ⟨_, _, hmalloc, ?_⟩
      rintro ptr ⟨⟩
      exact hle.trans_eq (taken_size (hblocks ▸ hring) (Nat.succ_pos _)).symm
    · intro units
      rw [hrequests]
      rcases hsome with ⟨a, ha, hle⟩
      exact iff_of_false List.not_mem_nil fun hand => absurd (hand.2 a ha) (Nat.not_lt.mpr hle)
  · have hsmall : ∀ a ∈ blocks, sizeAt h.mem a < unitsFor nbytes := fun a ha =>
      Nat.not_le.mp fun hle => hsome ⟨a, ha, hle⟩
    have hasks := malloc_asks hringed.ring hfuel₁ hsmall
    cases hsbrk : h.sbrks 0 with
    | none =>
      rcases hasks.1 _ (allocMem_null hsbrk _) with ⟨hmalloc, hrequests⟩
      apply And.intro
      · exact ⟨_, _, hmalloc, fun ptr hptr => absurd hptr (Option.not_mem_none ptr)⟩
      · intro units
        rw [hrequests, List.mem_singleton]
        exact (and_iff_left hsmall).symm
    | some gap =>
      rcases allocMem_spec hringed hsbrk hfuel₁ with
        ⟨h₁, blocks₁, halloc, hring₁, hlength, hfit⟩
      rcases hasks.2 _ _ halloc with ⟨hmalloc, hrequests⟩
      have hfuel₂ : blocks₁.length < fuel := by omega
      rcases malloc_fits hring₁ hfuel₂ hfit with
        ⟨left, right, block, hblocks, _, hle, hmalloc₁, hrequests₁⟩
      rw [hmalloc₁] at hmalloc
      rw [hrequests₁] at hrequests
      apply And.intro
      · refine ⟨_, _, hmalloc, ?_⟩
        rintro ptr ⟨⟩
        exact hle.trans_eq (taken_size (hblocks ▸ hring₁) (Nat.succ_pos _)).symm
      · intro units
        rw [hrequests, List.mem_singleton]
        exact (and_iff_left hsmall).symm

theorem ringed_start {mem : Memory} {brk : ℕ} {sbrks : ℕ → Option ℕ} (hbrk : lst < brk) :
    Ringed lst (State.start lst mem brk sbrks).heap [] where
  ring := DoublyLinked.nil (by simp [nextOf, State.start]) (by simp [prevOf, State.start])
  head := by simp [sizeAt, State.start]
  below a ha := List.mem_singleton.mp ha ▸ hbrk

end InterviewQuestions.Malloc

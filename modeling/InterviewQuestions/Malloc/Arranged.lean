import InterviewQuestions.Library.Machine
import InterviewQuestions.Malloc.Requests

/-! What holds between two calls: the free blocks and the blocks handed out, each with
the units it was handed out for, lie apart in the memory obtained. -/
namespace InterviewQuestions.Malloc

open Library Library.Extent

variable {lst : Address} {s : State} {blocks : List Address} {nbytes : ℕ}

/-- The blocks handed out, by the units that `malloc` computed for them. -/
def liveExtents (live : List (Address × ℕ)) : List Extent :=
  live.map fun b => (b.1, unitsFor b.2)

theorem mem_liveExtents {live : List (Address × ℕ)} {b : Address × ℕ} (h : b ∈ live) :
    (b.1, unitsFor b.2) ∈ liveExtents live :=
  List.mem_map_of_mem (f := fun b : Address × ℕ => (b.1, unitsFor b.2)) h

structure Arranged (lst : Address) (s : State) (blocks : List Address) : Prop where
  ring : FreeList lst s.heap.mem blocks
  head : sizeAt s.heap.mem lst = 0
  brk : lst + sizeofHeader ≤ s.heap.brk
  packed : Packed sizeofHeader (lst + sizeofHeader) s.heap.brk
    (recorded s.heap.mem blocks ++ liveExtents s.live)

theorem sizeofHeader_pos : 0 < sizeofHeader := by decide

theorem unitsFor_pos (nbytes : ℕ) : 0 < unitsFor nbytes := Nat.succ_pos _

theorem arranged_start {mem : Memory} {brk : Address} {sbrks : ℕ → Option ℕ}
    (hbrk : lst + sizeofHeader ≤ brk) : Arranged lst (State.start lst mem brk sbrks) [] where
  ring := DoublyLinked.nil (by simp [State.start, nextOf]) (by simp [State.start, prevOf])
  head := by simp [State.start, sizeAt]
  brk := hbrk
  packed := Packed.nil

/-- The answers of `sbrk` still to come do not matter. -/
theorem Arranged.sbrks (h : Arranged lst s blocks) (sbrks : ℕ → Option ℕ) :
    Arranged lst ⟨{ s.heap with sbrks := sbrks }, s.live⟩ blocks where
  ring := h.ring
  head := h.head
  brk := h.brk
  packed := h.packed

theorem Arranged.lst_lt (h : Arranged lst s blocks) {a : Address} (ha : a ∈ blocks) : lst < a := by
  have hlo := (h.packed.within _ (List.mem_append_left _ (mem_recorded ha))).1
  exact Nat.lt_of_lt_of_le (Nat.lt_add_of_pos_right sizeofHeader_pos) hlo

theorem Arranged.live_lst_lt (h : Arranged lst s blocks) {b : Address × ℕ} (hb : b ∈ s.live) :
    lst < b.1 := by
  have hlo := (h.packed.within _ (List.mem_append_right _ (mem_liveExtents hb))).1
  exact Nat.lt_of_lt_of_le (Nat.lt_add_of_pos_right sizeofHeader_pos) hlo

/-- All blocks, free or handed out, start at different addresses. -/
theorem Arranged.starts_nodup (h : Arranged lst s blocks) :
    (blocks ++ s.live.map Prod.fst).Nodup := by
  have hstarts := h.packed.starts_nodup sizeofHeader_pos
  simpa [recorded, liveExtents, Function.comp_def] using hstarts

theorem Arranged.live_not_free (h : Arranged lst s blocks) {b : Address × ℕ} (hb : b ∈ s.live) :
    b.1 ∉ blocks := fun hmem =>
  (List.nodup_append.mp h.starts_nodup).2.2 b.1 hmem b.1 (List.mem_map_of_mem hb) rfl

theorem Arranged.start_lt_brk (h : Arranged lst s blocks) {e : Extent}
    (he : e ∈ recorded s.heap.mem blocks ++ liveExtents s.live) : e.1 < s.heap.brk := by
  have hpos := Nat.mul_pos sizeofHeader_pos (h.packed.nonempty e he)
  have hlt : e.1 < stop sizeofHeader e := Nat.lt_add_of_pos_right hpos
  exact Nat.lt_of_lt_of_le hlt (h.packed.within e he).2

/-- `malloc` may be called. -/
theorem Arranged.ringed (h : Arranged lst s blocks) : Ringed lst s.heap blocks where
  ring := h.ring
  head := h.head
  below a ha := by
    rcases List.mem_cons.mp ha with rfl | ha
    · exact Nat.lt_of_lt_of_le (Nat.lt_add_of_pos_right sizeofHeader_pos) h.brk
    · exact h.start_lt_brk (List.mem_append_left _ (mem_recorded ha))

/-! ## Handing out a block -/

/-- A block of the free list is handed out. -/
structure Taken (lst : Address) (s : State) (blocks : List Address) (block : Address) (nbytes : ℕ)
    (mem' : Memory) (blocks' : List Address) : Prop where
  arranged : Arranged lst ⟨{ s.heap with mem := mem' }, (block, nbytes) :: s.live⟩ blocks'
  enough : unitsFor nbytes ≤ sizeAt s.heap.mem block
  size : sizeAt mem' block = sizeAt s.heap.mem block
  sizes : ∀ b ∈ s.live, sizeAt mem' b.1 = sizeAt s.heap.mem b.1
  covers : ∀ x, Covers sizeofHeader (recorded s.heap.mem blocks) x →
    Covers sizeofHeader ((block, unitsFor nbytes) :: recorded mem' blocks') x
  length : blocks'.length ≤ blocks.length

section Take

variable {left right : List Address} {block : Address}

theorem recorded_middle (mem : Memory) (left right : List Address) (block : Address) :
    (recorded mem (left ++ block :: right)).Perm
      ((block, sizeAt mem block) :: recorded mem (left ++ right)) :=
  recorded_perm List.perm_middle

/-- A block of exactly the right size leaves the list. -/
theorem Arranged.unlinked (h : Arranged lst s (left ++ block :: right))
    (hexact : sizeAt s.heap.mem block = unitsFor nbytes) :
    Taken lst s (left ++ block :: right) block nbytes (unlink s.heap.mem block)
      (left ++ right) := by
  obtain ⟨hnext, hprev, hsize⟩ := unlink_fields s.heap.mem block
  have hmiddle := recorded_middle s.heap.mem left right block
  have hrest : recorded (unlink s.heap.mem block) (left ++ right) =
      recorded s.heap.mem (left ++ right) := recorded_congr fun a _ => congrFun hsize a
  have hpacked := h.packed.perm (hmiddle.append_right (liveExtents s.live))
  rw [hexact] at hmiddle hpacked
  refine ⟨⟨?_, by rw [hsize, h.head], h.brk, ?_⟩, Nat.le_of_eq hexact.symm, by rw [hsize],
    fun b _ => by rw [hsize], fun x hx => ?_, by simp⟩
  · rw [FreeList, hnext, hprev]
    exact h.ring.remove
  · rw [hrest]
    exact hpacked.perm List.perm_middle.symm
  · rw [hrest]
    exact hx.perm hmiddle

/-- Inside a block no other block starts. -/
theorem Arranged.inside_not_start (h : Arranged lst s (left ++ block :: right))
    (hlarger : unitsFor nbytes < sizeAt s.heap.mem block) :
    ∀ e ∈ recorded s.heap.mem (left ++ right) ++ liveExtents s.live,
      e.1 ≠ block + sizeofHeader * unitsFor nbytes := by
  have hmiddle := recorded_middle s.heap.mem left right block
  have hpacked := h.packed.perm (hmiddle.append_right (liveExtents s.live))
  apply hpacked.inside_not_start sizeofHeader_pos (Nat.le_add_right _ _)
  exact Nat.add_lt_add_left (Nat.mul_lt_mul_of_pos_left hlarger sizeofHeader_pos) block

/-- A larger block is cut in two, and the second part takes its place. -/
theorem Arranged.split (h : Arranged lst s (left ++ block :: right))
    (hlarger : unitsFor nbytes < sizeAt s.heap.mem block) :
    Taken lst s (left ++ block :: right) block nbytes
      (splitBlock s.heap.mem block (unitsFor nbytes))
      (left ++ (block + sizeofHeader * unitsFor nbytes) :: right) := by
  let newBlock := block + sizeofHeader * unitsFor nbytes
  obtain ⟨hnext, hprev, hsize⟩ := splitBlock_fields (unitsFor_pos nbytes) h.ring.prev_ne_self
  obtain ⟨rest, hrestsize⟩ := Nat.exists_eq_add_of_lt hlarger
  have hsizes : sizeAt s.heap.mem block = unitsFor nbytes + (rest + 1) := hrestsize
  have hmiddle := recorded_middle s.heap.mem left right block
  have hpacked := h.packed.perm (hmiddle.append_right (liveExtents s.live))
  rw [hsizes] at hmiddle hpacked
  -- the new header is written inside the block, where no other block starts
  have hfresh : ∀ e ∈ recorded s.heap.mem (left ++ right) ++ liveExtents s.live, e.1 ≠ newBlock :=
    h.inside_not_start hlarger
  have hfree : ∀ a ∈ left ++ right, a ≠ newBlock := fun a ha =>
    hfresh _ (List.mem_append_left _ (mem_recorded ha))
  have hlive : ∀ b ∈ s.live, b.1 ≠ newBlock := fun b hb =>
    hfresh (b.1, unitsFor b.2) (List.mem_append_right _ (mem_liveExtents hb))
  have hself : block ≠ newBlock :=
    Nat.ne_of_lt (Nat.lt_add_of_pos_right (Nat.mul_pos sizeofHeader_pos (unitsFor_pos nbytes)))
  have hlst : newBlock ≠ lst :=
    Nat.ne_of_gt (Nat.lt_of_lt_of_le (h.lst_lt (by simp)) (Nat.le_add_right block _))
  have hrest : recorded (splitBlock s.heap.mem block (unitsFor nbytes)) (left ++ right) =
      recorded s.heap.mem (left ++ right) :=
    recorded_congr fun a ha => by rw [hsize, Function.update_of_ne (hfree a ha)]
  have hnew : sizeAt (splitBlock s.heap.mem block (unitsFor nbytes)) newBlock = rest + 1 := by
    rw [hsize, Function.update_self, hsizes, Nat.add_sub_cancel_left]
  have hrecorded := recorded_middle (splitBlock s.heap.mem block (unitsFor nbytes))
    left right newBlock
  rw [hrest, hnew] at hrecorded
  refine ⟨⟨?_, ?_, h.brk, ?_⟩, Nat.le_of_lt hlarger, ?_, fun b hb => ?_, fun x hx => ?_, by simp⟩
  · rw [FreeList, hnext, hprev]
    apply h.ring.replace
    intro hmem
    cases List.mem_cons.mp hmem with
    | inl heq => exact hlst heq
    | inr hmem => exact hfree _ hmem rfl
  · rw [hsize, Function.update_of_ne hlst.symm, h.head]
  · refine ((hpacked.cut (unitsFor_pos nbytes) (Nat.succ_pos rest)).perm ?_)
    have hmoved := @List.perm_middle _ (block, unitsFor nbytes)
      ((newBlock, rest + 1) :: recorded s.heap.mem (left ++ right)) (liveExtents s.live)
    exact hmoved.symm.trans (hrecorded.symm.append_right (liveExtents ((block, nbytes) :: s.live)))
  · rw [hsize, Function.update_of_ne hself]
  · rw [hsize, Function.update_of_ne (hlive b hb)]
  · refine (covers_cut (hx.perm hmiddle)).perm (List.Perm.cons _ hrecorded.symm)

end Take

/-! ## Growing the heap -/

theorem le_bytesFor {units : ℕ} (hwrap : units * sizeofHeader < 2 ^ 64) :
    sizeofHeader * units ≤ bytesFor units := by
  unfold bytesFor sizeofHeader ALLOC_MIN_UNITS at *
  split <;> omega

theorem bytesFor_eq {units : ℕ} (hmin : ALLOC_MIN_UNITS ≤ units)
    (hwrap : units * sizeofHeader < 2 ^ 64) : bytesFor units = sizeofHeader * units := by
  unfold bytesFor
  rw [if_neg (Nat.not_lt.mpr hmin), Nat.mod_eq_of_lt hwrap, Nat.mul_comm]

/-- A new block from `sbrk` is in the free list, with the size asked for. -/
structure Grown (lst : Address) (s : State) (blocks : List Address) (allocated : Address)
    (units : ℕ) (heap' : Heap) (blocks' : List Address) : Prop where
  arranged : Arranged lst ⟨heap', s.live⟩ blocks'
  joined : Merged sizeofHeader ((allocated, units) :: recorded s.heap.mem blocks)
    (recorded heap'.mem blocks')
  sizes : ∀ b ∈ s.live, sizeAt heap'.mem b.1 = sizeAt s.heap.mem b.1
  obtained : heap'.obtained = (allocated, bytesFor units) :: s.heap.obtained
  above : ∀ a ∈ blocks, a ≠ allocated
  alone : (∀ a ∈ blocks, a + sizeofHeader * sizeAt s.heap.mem a ≠ allocated) →
    blocks'.Perm (allocated :: blocks) ∧
      sizeAt heap'.mem = Function.update (sizeAt s.heap.mem) allocated units

theorem Arranged.grow (h : Arranged lst s blocks) {gap units fuel : ℕ}
    (hsbrk : s.heap.sbrks 0 = some gap) (hunits : 0 < units)
    (hwrap : units * sizeofHeader < 2 ^ 64) (hfuel : blocks.length < fuel) :
    ∃ heap' blocks', allocMem lst fuel s.heap units = some (some (s.heap.brk + gap), heap') ∧
      Grown lst s blocks (s.heap.brk + gap) units heap' blocks' := by
  let allocated := s.heap.brk + gap
  have hgap : s.heap.brk ≤ allocated := Nat.le_add_right _ gap
  have hfree : ∀ a ∈ blocks, a < allocated := fun a ha =>
    (h.ringed.below a (List.mem_cons_of_mem lst ha)).trans_le hgap
  have hlive : ∀ b ∈ s.live, b.1 < allocated := by
    intro b hb
    have hextent := List.mem_append_right (recorded s.heap.mem blocks) (mem_liveExtents hb)
    exact (h.start_lt_brk hextent).trans_le hgap
  have hlt : lst < allocated := (h.ringed.below lst List.mem_cons_self).trans_le hgap
  obtain ⟨mem', blocks', halloc, hspec, hjoined⟩ := allocMem_freed h.ringed hsbrk hfuel units
  have hsize₁ : sizeAt (setSize s.heap.mem allocated units) =
      Function.update (sizeAt s.heap.mem) allocated units := sizeAt_setSize ..
  have hold : ∀ a, a < allocated →
      sizeAt (setSize s.heap.mem allocated units) a = sizeAt s.heap.mem a := fun a ha => by
    rw [hsize₁, Function.update_of_ne (Nat.ne_of_lt ha)]
  have hpacked : Packed sizeofHeader (lst + sizeofHeader) (allocated + bytesFor units)
      ((allocated, units) :: (recorded s.heap.mem blocks ++ liveExtents s.live)) :=
    h.packed.add (Nat.le_trans h.brk hgap) hgap hunits
      (Nat.add_le_add_left (le_bytesFor hwrap) allocated)
  have hother : ∀ a, a < allocated → a ∉ blocks → sizeAt mem' a = sizeAt s.heap.mem a := by
    intro a ha hmem
    rw [hspec.sizes a, hold a ha]
    rw [List.mem_cons, not_or]
    exact ⟨Nat.ne_of_lt ha, hmem⟩
  refine ⟨_, blocks', halloc, ⟨⟨hspec.ring, ?_, ?_, ?_⟩, hjoined, fun b hb => ?_, rfl,
    fun a ha => Nat.ne_of_lt (hfree a ha), fun halone => ?_⟩⟩
  · exact (hother lst hlt (List.nodup_cons.mp h.ring.nodup).1).trans h.head
  · exact Nat.le_trans h.brk (Nat.le_trans hgap (Nat.le_add_right _ _))
  · exact hjoined.packed sizeofHeader_pos hpacked
  · exact hother b.1 (hlive b hb) (h.live_not_free hb)
  · have hends : ∀ a ∈ blocks, allocated + sizeofHeader *
          sizeAt (setSize s.heap.mem allocated units) allocated ≠ a ∧
        a + sizeofHeader * sizeAt (setSize s.heap.mem allocated units) a ≠ allocated := by
      intro a ha
      rw [hold a (hfree a ha)]
      exact ⟨Nat.ne_of_gt (Nat.lt_of_lt_of_le (hfree a ha) (Nat.le_add_right _ _)), halone a ha⟩
    obtain ⟨hperm, hsize⟩ := hspec.alone hends
    exact ⟨hperm, hsize.trans hsize₁⟩

/-! ## What a call can do -/

/-- A call of `malloc` takes the first block that is large enough, after growing the heap when
there is none, or fails with `sbrk`. -/
inductive MallocStep (lst : Address) (s : State) (blocks : List Address) (nbytes : ℕ) :
    Option Address → State → List Address → Prop where
  | fits {left right : List Address} {block : Address} {mem' : Memory} {blocks' : List Address}
      (hblocks : blocks = left ++ block :: right)
      (hleft : ∀ a ∈ left, sizeAt s.heap.mem a < unitsFor nbytes)
      (htaken : Taken lst s blocks block nbytes mem' blocks') :
      MallocStep lst s blocks nbytes (some (block + sizeofHeader))
        ⟨{ s.heap with mem := mem' }, (block, nbytes) :: s.live⟩ blocks'
  | null (hsmall : ∀ a ∈ blocks, sizeAt s.heap.mem a < unitsFor nbytes)
      (hsbrk : s.heap.sbrks 0 = none) :
      MallocStep lst s blocks nbytes none
        ⟨{ s.heap with sbrks := fun i => s.heap.sbrks (i + 1) }, s.live⟩ blocks
  | grows {gap : ℕ} {heap₁ : Heap} {blocks₁ left right : List Address} {block : Address}
      {mem' : Memory} {blocks' : List Address}
      (hsmall : ∀ a ∈ blocks, sizeAt s.heap.mem a < unitsFor nbytes)
      (hsbrk : s.heap.sbrks 0 = some gap)
      (hgrown : Grown lst s blocks (s.heap.brk + gap) (unitsFor nbytes) heap₁ blocks₁)
      (hblocks : blocks₁ = left ++ block :: right)
      (hleft : ∀ a ∈ left, sizeAt heap₁.mem a < unitsFor nbytes)
      (htaken : Taken lst ⟨heap₁, s.live⟩ blocks₁ block nbytes mem' blocks') :
      MallocStep lst s blocks nbytes (some (block + sizeofHeader))
        ⟨{ heap₁ with mem := mem' }, (block, nbytes) :: s.live⟩ blocks'

/-- When a free block is large enough, the first is handed out. -/
theorem Arranged.malloc_taken (h : Arranged lst s blocks) {fuel : ℕ}
    (hfuel : blocks.length < fuel) (hsome : ∃ a ∈ blocks, unitsFor nbytes ≤ sizeAt s.heap.mem a) :
    ∃ left right block mem' blocks', blocks = left ++ block :: right ∧
      (∀ a ∈ left, sizeAt s.heap.mem a < unitsFor nbytes) ∧
      malloc lst (fuel + 1) nbytes s.heap =
        some (some (block + sizeofHeader), { s.heap with mem := mem' }) ∧
      Taken lst s blocks block nbytes mem' blocks' := by
  obtain ⟨left, right, block, rfl, hleft, hle, hmalloc, _⟩ := malloc_fits h.ring hfuel hsome
  by_cases hexact : sizeAt s.heap.mem block = unitsFor nbytes
  · rw [if_pos hexact] at hmalloc
    exact ⟨left, right, block, _, _, rfl, hleft, hmalloc, h.unlinked hexact⟩
  · rw [if_neg hexact] at hmalloc
    exact ⟨left, right, block, _, _, rfl, hleft, hmalloc,
      h.split (Nat.lt_of_le_of_ne hle (Ne.symm hexact))⟩

theorem Arranged.malloc_step (h : Arranged lst s blocks) (nbytes : ℕ) {fuel : ℕ}
    (hfuel : blocks.length + 3 < fuel)
    (hwrap : (∀ a ∈ blocks, sizeAt s.heap.mem a < unitsFor nbytes) → (s.heap.sbrks 0).isSome →
      unitsFor nbytes * sizeofHeader < 2 ^ 64) :
    ∃ res s' blocks', step lst fuel (some s) (.malloc nbytes) = (some s', some res) ∧
      MallocStep lst s blocks nbytes res s' blocks' := by
  obtain ⟨fuel, rfl⟩ : ∃ k, fuel = k + 2 := ⟨fuel - 2, by omega⟩
  have hfuel₁ : blocks.length + 1 < fuel := by omega
  have hfuel₂ : blocks.length < fuel + 1 := by omega
  by_cases hsome : ∃ a ∈ blocks, unitsFor nbytes ≤ sizeAt s.heap.mem a
  · obtain ⟨left, right, block, mem', blocks', hblocks, hleft, hmalloc, htaken⟩ :=
      h.malloc_taken hfuel₂ hsome
    refine ⟨_, _, blocks', ?_, .fits hblocks hleft htaken⟩
    simp only [step, hmalloc, Nat.add_sub_cancel]
  · have hsmall : ∀ a ∈ blocks, sizeAt s.heap.mem a < unitsFor nbytes := fun a ha =>
      Nat.not_le.mp fun hle => hsome ⟨a, ha, hle⟩
    have hasks := malloc_asks h.ring hfuel₂ hsmall
    cases hsbrk : s.heap.sbrks 0 with
    | none =>
      refine ⟨none, _, _, ?_, .null hsmall hsbrk⟩
      obtain ⟨hmalloc, _⟩ := hasks.1 _ (allocMem_null hsbrk _)
      simp only [step, hmalloc]
    | some gap =>
      obtain ⟨heap₁, blocks₁, halloc, hgrown⟩ := h.grow hsbrk (unitsFor_pos nbytes)
        (hwrap hsmall (by rw [hsbrk]; rfl)) hfuel₂
      obtain ⟨e, he, hlarge⟩ := hgrown.joined.exists_le List.mem_cons_self
      obtain ⟨a, ha, rfl⟩ := List.mem_map.mp he
      have hlength : blocks₁.length < fuel := by
        have hjoined := hgrown.joined.length_le
        simp only [recorded, List.length_cons, List.length_map] at hjoined
        omega
      obtain ⟨left₁, right₁, block, mem', blocks', hblocks, hleft, hfits, htaken⟩ :=
        hgrown.arranged.malloc_taken hlength ⟨a, ha, hlarge⟩
      obtain ⟨hmalloc, _⟩ := hasks.2 _ _ halloc
      refine ⟨_, _, blocks', ?_, .grows hsmall hsbrk hgrown hblocks hleft htaken⟩
      simp only [step, hmalloc, hfits, Nat.add_sub_cancel]

/-- A call of `free` puts the block in the free list. -/
structure FreeStep (s : State) (blocks : List Address) (b : Address × ℕ) (lst : Address)
    (s' : State) (blocks' : List Address) : Prop where
  arranged : Arranged lst s' blocks'
  heap : ∃ mem', s'.heap = { s.heap with mem := mem' }
  live : s.live.Perm (b :: s'.live)
  sizes : ∀ c ∈ s'.live, sizeAt s'.heap.mem c.1 = sizeAt s.heap.mem c.1
  covers : ∀ x, Covers sizeofHeader (recorded s.heap.mem (b.1 :: blocks)) x →
    Covers sizeofHeader (recorded s'.heap.mem blocks') x
  length : blocks'.length ≤ blocks.length + 1

/-- The block that is freed is the only one that leaves the list of those handed out. -/
theorem Arranged.live_perm (h : Arranged lst s blocks) {b : Address × ℕ} (hb : b ∈ s.live) :
    s.live.Perm (b :: s.live.filter fun c => c.1 + sizeofHeader ≠ b.1 + sizeofHeader) := by
  have hlivestarts : (s.live.map Prod.fst).Nodup := (List.nodup_append.mp h.starts_nodup).2.1
  have herase : s.live.erase b =
      s.live.filter fun c => c.1 + sizeofHeader ≠ b.1 + sizeofHeader := by
    rw [hlivestarts.of_map.erase_eq_filter]
    apply List.filter_congr
    intro c hc
    have hiff : c = b ↔ c.1 = b.1 :=
      ⟨congrArg Prod.fst, List.inj_on_of_nodup_map hlivestarts hc hb⟩
    rw [Bool.eq_iff_iff]
    simp [hiff]
  rw [← herase]
  exact List.perm_cons_erase hb

/-- The block is freed with the size it was handed out with. -/
theorem Arranged.free_step (h : Arranged lst s blocks) {b : Address × ℕ} (hb : b ∈ s.live)
    (hsize : sizeAt s.heap.mem b.1 = unitsFor b.2) {fuel : ℕ} (hfuel : blocks.length < fuel) :
    ∃ s' blocks', step lst fuel (some s) (.free (b.1 + sizeofHeader)) = (some s', some none) ∧
      FreeStep s blocks b lst s' blocks' := by
  have hlive := h.live_perm hb
  obtain ⟨mem', blocks', hfree, hfreed⟩ :=
    free_spec h.ring (h.live_not_free hb) (h.live_lst_lt hb) h.head hfuel
  have hne : ∀ c ∈ s.live.filter (fun c => c.1 + sizeofHeader ≠ b.1 + sizeofHeader),
      sizeAt mem' c.1 = sizeAt s.heap.mem c.1 := by
    intro c hc
    obtain ⟨hlivec, hcb⟩ := List.mem_filter.mp hc
    apply hfreed.sizes c.1
    rw [List.mem_cons, not_or]
    refine ⟨fun heq => ?_, h.live_not_free hlivec⟩
    simp [heq] at hcb
  have hpacked : Packed sizeofHeader (lst + sizeofHeader) s.heap.brk
      (recorded s.heap.mem (b.1 :: blocks) ++ liveExtents
        (s.live.filter fun c => c.1 + sizeofHeader ≠ b.1 + sizeofHeader)) := by
    apply h.packed.perm
    have hextents : (liveExtents s.live).Perm ((b.1, sizeAt s.heap.mem b.1) :: liveExtents
        (s.live.filter fun c => c.1 + sizeofHeader ≠ b.1 + sizeofHeader)) := by
      rw [hsize]
      exact hlive.map _
    exact (hextents.append_left _).trans List.perm_middle
  have hlst : sizeAt mem' lst = sizeAt s.heap.mem lst := by
    apply hfreed.sizes lst
    rw [List.mem_cons, not_or]
    exact ⟨Nat.ne_of_lt (h.live_lst_lt hb), (List.nodup_cons.mp h.ring.nodup).1⟩
  refine ⟨⟨{ s.heap with mem := mem' },
      s.live.filter fun c => c.1 + sizeofHeader ≠ b.1 + sizeofHeader⟩, blocks',
    by simp only [step, hfree], ⟨⟨hfreed.ring, hlst.trans h.head, h.brk, ?_⟩,
    ⟨mem', rfl⟩, hlive, hne, fun x hx => hfreed.joined.covers hx, ?_⟩⟩
  · exact hfreed.joined.packed sizeofHeader_pos hpacked
  · have hlength := hfreed.joined.length_le
    simpa only [recorded, List.length_cons, List.length_map] using hlength

end InterviewQuestions.Malloc

/-! Runs of the allocator: what every call keeps holds in the state after a run, and
every call of the run returns. -/
namespace InterviewQuestions.Malloc

open Library

variable {lst : Address} {fuel nbytes : ℕ} {s : State} {blocks : List Address}

/-! ## The first fit -/

/-- The first free block that is large enough. -/
def firstFit (lst : Address) (fuel : ℕ) (s : State) (nbytes : ℕ) : Option Address :=
  (freeBlocks lst s.heap.mem fuel (s.heap.mem lst).next).find? fun a =>
    unitsFor nbytes ≤ sizeAt s.heap.mem a

theorem Arranged.firstFit_none (h : Arranged lst s blocks) {fuel : ℕ}
    (hfuel : blocks.length ≤ fuel) :
    firstFit lst fuel s nbytes = none ↔ ∀ a ∈ blocks, sizeAt s.heap.mem a < unitsFor nbytes := by
  unfold firstFit
  rw [freeBlocks_eq h.ring hfuel, List.find?_eq_none]
  simp

theorem Arranged.firstFit_some (h : Arranged lst s blocks) {fuel : ℕ}
    (hfuel : blocks.length ≤ fuel) {left right : List Address} {block : Address}
    (hblocks : blocks = left ++ block :: right)
    (hleft : ∀ a ∈ left, sizeAt s.heap.mem a < unitsFor nbytes)
    (henough : unitsFor nbytes ≤ sizeAt s.heap.mem block) :
    firstFit lst fuel s nbytes = some block := by
  unfold firstFit
  rw [freeBlocks_eq h.ring hfuel, hblocks, List.find?_append]
  have hnone : left.find? (fun a => unitsFor nbytes ≤ sizeAt s.heap.mem a) = none := by
    rw [List.find?_eq_none]
    simpa using hleft
  rw [hnone, List.find?_cons_of_pos (by simpa using henough)]
  rfl

/-! ## Invariants of runs -/

theorem MallocStep.length_le {res : Option Address} {s' : State} {blocks' : List Address}
    (h : MallocStep lst s blocks nbytes res s' blocks') : blocks'.length ≤ blocks.length + 1 := by
  cases h with
  | fits hblocks hleft htaken => exact Nat.le_succ_of_le htaken.length
  | null hsmall hsbrk => exact Nat.le_succ _
  | grows hsmall hsbrk hgrown hblocks hleft htaken =>
    have hjoined := hgrown.joined.length_le
    simp only [recorded, List.length_cons, List.length_map] at hjoined
    exact Nat.le_trans htaken.length hjoined

/-- `inv` says that the heap is arranged, and is kept by the calls that `ok` allows: those of
`malloc` that grow the heap ask for a size in range, and `free` finds in the header the
size that the block was handed out for. -/
structure Keeps (lst : Address) (fuel : ℕ) (inv : State → List Address → Prop)
    (ok : State → Op → Prop) : Prop where
  arranged : ∀ {s blocks}, inv s blocks → Arranged lst s blocks
  range : ∀ {s blocks nbytes}, inv s blocks → ok s (.malloc nbytes) →
    firstFit lst fuel s nbytes = none → (s.heap.sbrks 0).isSome →
    unitsFor nbytes * sizeofHeader < 2 ^ 64
  malloc : ∀ {s blocks nbytes res s' blocks'}, inv s blocks → blocks.length ≤ fuel →
    ok s (.malloc nbytes) → MallocStep lst s blocks nbytes res s' blocks' → inv s' blocks'
  handed : ∀ {s blocks ptr}, inv s blocks → ok s (.free ptr) →
    ∃ b ∈ s.live, b.1 + sizeofHeader = ptr ∧ sizeAt s.heap.mem b.1 = unitsFor b.2
  free : ∀ {s blocks b s' blocks'}, inv s blocks → sizeAt s.heap.mem b.1 = unitsFor b.2 →
    FreeStep s blocks b lst s' blocks' → inv s' blocks'

variable {inv : State → List Address → Prop} {ok : State → Op → Prop}

/-- The invariant with the calls that the fuel still allows. -/
def HoldsFor (fuel : ℕ) (inv : State → List Address → Prop) (calls : ℕ) : Option State → Prop
  | none => False
  | some s => ∃ blocks, inv s blocks ∧ blocks.length + calls + 2 < fuel

theorem Keeps.step (h : Keeps lst fuel inv ok) {calls : ℕ} {s : Option State} {op : Op}
    (hs : HoldsFor fuel inv (calls + 1) s) (hop : InState ok s op) :
    HoldsFor fuel inv calls (step lst fuel s op).1 := by
  cases s with
  | none => exact hs.elim
  | some s =>
    obtain ⟨blocks, hinv, hfuel⟩ := hs
    have hok := hop s rfl
    have harranged := h.arranged hinv
    cases op with
    | malloc nbytes =>
      have hlength : blocks.length ≤ fuel := by omega
      have hroom : blocks.length + 3 < fuel := by omega
      have hwrap : (∀ a ∈ blocks, sizeAt s.heap.mem a < unitsFor nbytes) →
          (s.heap.sbrks 0).isSome → unitsFor nbytes * sizeofHeader < 2 ^ 64 := fun hsmall =>
        h.range hinv hok ((harranged.firstFit_none hlength).mpr hsmall)
      obtain ⟨res, s', blocks', hstep, hmalloc⟩ := harranged.malloc_step nbytes hroom hwrap
      have hlength' := hmalloc.length_le
      rw [hstep]
      exact ⟨blocks', h.malloc hinv hlength hok hmalloc, by omega⟩
    | free ptr =>
      obtain ⟨b, hb, rfl, hsize⟩ := h.handed hinv hok
      have hroom : blocks.length < fuel := by omega
      obtain ⟨s', blocks', hstep, hfree⟩ := harranged.free_step hb hsize hroom
      have hlength' := hfree.length
      rw [hstep]
      exact ⟨blocks', h.free hinv hsize hfree, by omega⟩

theorem Keeps.run (h : Keeps lst fuel inv ok) {s : State} (hs : inv s []) {ops : List Op}
    (hfuel : ops.length + 2 < fuel)
    (hops : Machine.Admits (Malloc.step lst fuel) (InState ok) (some s) ops) :
    ∃ s' blocks', (Machine.run (Malloc.step lst fuel) (some s) ops).1 = some s' ∧
      inv s' blocks' := by
  have hstart : HoldsFor fuel inv (0 + ops.length) (some s) := by
    refine ⟨[], hs, ?_⟩
    rw [List.length_nil, Nat.zero_add, Nat.zero_add]
    exact hfuel
  have hlast := Machine.run_budget (HoldsFor fuel inv) (fun calls s op hs hop => h.step hs hop)
    hstart hops
  cases hrun : (Machine.run (Malloc.step lst fuel) (some s) ops).1 with
  | none =>
    rw [hrun] at hlast
    exact hlast.elim
  | some s' =>
    rw [hrun] at hlast
    obtain ⟨blocks', hinv, _⟩ := hlast
    exact ⟨s', blocks', rfl, hinv⟩

end InterviewQuestions.Malloc
